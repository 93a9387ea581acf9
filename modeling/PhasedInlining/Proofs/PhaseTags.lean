import Mathlib.Algebra.Group.Nat.Defs
import Mathlib.Data.List.Induction
import Mathlib.Data.Set.List
import PhasedInlining.Proofs.Lifetimes

/-!
# What phase tags say

A tag is read from the left, each digit onto the number read so far. What it means is said here
without reading it: by the places of its digits (`Numeral.value`), and by the printed form of a
number, which may have zeros in front. Reading agrees with both (`Phase.parse_text`,
`Phase.parse_eq_ok_iff_zeros`) and refuses what is no numeral or too great a one. So a function
marked for a phase is found marked for that phase and no other, for as long as its module has it
(`Module.phaseOf_of_edits`).
-/

namespace PhasedInlining

open Relation Target

/-- One decimal digit or more, the most significant first. Zeros may lead. -/
structure Numeral where
  digits : List (Fin 10)
  ne_nil : digits ≠ []

namespace Numeral

/-- Each digit counts for itself times the power of ten of its place. -/
def placeSum : List (Fin 10) → Nat
  | [] => 0
  | d :: ds => d * 10 ^ ds.length + placeSum ds

def value (ν : Numeral) : Nat := placeSum ν.digits

/-- The characters of a row of digits. -/
def figures (ds : List (Fin 10)) : List Char := ds.map fun d => d.val.digitChar

def text (ν : Numeral) : String := .ofList (figures ν.digits)

theorem toList_text (ν : Numeral) : ν.text.toList = figures ν.digits := String.toList_ofList

theorem figures_concat (ds : List (Fin 10)) (d : Fin 10) :
    figures (ds ++ [d]) = figures ds ++ [d.val.digitChar] := List.map_append

theorem placeSum_concat (d : Fin 10) :
    ∀ ds : List (Fin 10), placeSum (ds ++ [d]) = 10 * placeSum ds + d
  | [] => by simp [placeSum]
  | e :: ds => by
    simp only [List.cons_append, placeSum, placeSum_concat d ds, List.length_append,
      List.length_singleton, Nat.pow_succ]
    grind

/-- Reading from the left adds up the places. -/
theorem ofDigits_figures (ds : List (Fin 10)) : Phase.ofDigits (figures ds) = placeSum ds := by
  induction ds using List.reverseRecOn with
  | nil => rfl
  | append_singleton ds d ih =>
    have hd : d.val.digitChar.toNat - 48 = d := Nat.toNat_digitChar_sub_48_of_lt_ten d.isLt
    rw [placeSum_concat, ← ih, figures_concat]
    simp [Phase.ofDigits, hd]

theorem ofDigits_text (ν : Numeral) : Phase.ofDigits ν.text.toList = ν.value := by
  rw [toList_text, ofDigits_figures, value]

theorem isDigit_iff {c : Char} : c.isDigit ↔ ∃ d : Fin 10, d.val.digitChar = c := by
  constructor
  · intro hc
    have hc : 48 ≤ c.toNat ∧ c.toNat ≤ 57 := by
      simpa [Char.isDigit, UInt32.le_iff_toNat_le] using hc
    have hlt : c.toNat - 48 < 10 := by omega
    refine ⟨⟨c.toNat - 48, hlt⟩, Char.toNat_inj.1 ?_⟩
    rw [Nat.toNat_digitChar_of_lt_ten hlt]
    omega
  · rintro ⟨d, rfl⟩
    simp

/-- The numerals are the texts that have characters, all of them digits. -/
theorem exists_text_iff {tag : String} :
    (∃ ν : Numeral, ν.text = tag) ↔ tag.toList ≠ [] ∧ ∀ c ∈ tag.toList, c.isDigit := by
  constructor
  · rintro ⟨⟨ds, hds⟩, rfl⟩
    rw [toList_text]
    refine ⟨fun hnil => hds (List.map_eq_nil_iff.1 hnil), fun c hc => ?_⟩
    obtain ⟨d, -, hd⟩ := List.mem_map.1 hc
    exact isDigit_iff.2 ⟨d, hd⟩
  · rintro ⟨hne, hdigits⟩
    have hrange : tag.toList ∈ Set.range figures := by
      unfold figures
      rw [Set.range_list_map]
      exact fun c hc => isDigit_iff.1 (hdigits c hc)
    obtain ⟨ds, hds⟩ := hrange
    have hds' : ds ≠ [] := by
      rintro rfl
      exact hne hds.symm
    exact ⟨⟨ds, hds'⟩, String.toList_inj.1 ((toList_text _).trans hds)⟩

/-- A row of digits is its value as printed, behind the zeros that lead. -/
theorem exists_zeros {ds : List (Fin 10)} (hds : ds ≠ []) :
    ∃ k, figures ds = List.replicate k '0' ++ Nat.toDigits 10 (placeSum ds) := by
  induction ds using List.reverseRecOn with
  | nil => exact absurd rfl hds
  | append_singleton ds d ih =>
    have hlast : Nat.toDigits 10 d = [d.val.digitChar] := Nat.toDigits_of_lt_base d.isLt
    rw [figures_concat, placeSum_concat]
    rcases eq_or_ne ds [] with rfl | hne
    · exact ⟨0, by simp [figures, placeSum, hlast]⟩
    obtain ⟨k, hk⟩ := ih hne
    rw [hk]
    rcases Nat.eq_zero_or_pos (placeSum ds) with hzero | hpos
    · refine ⟨k + 1, ?_⟩
      rw [hzero, Nat.toDigits_zero, Nat.mul_zero, Nat.zero_add, hlast, List.replicate_succ']
    · refine ⟨k, ?_⟩
      rw [List.append_assoc, ← hlast, Nat.toDigits_append_toDigits (by decide) hpos d.isLt]

theorem exists_eq_zeros (k n : Nat) :
    ∃ ν : Numeral, ν.text.toList = List.replicate k '0' ++ Nat.toDigits 10 n ∧ ν.value = n := by
  obtain ⟨ν, hν⟩ : ∃ ν : Numeral,
      ν.text = .ofList (List.replicate k '0' ++ Nat.toDigits 10 n) := by
    rw [exists_text_iff, String.toList_ofList]
    refine ⟨by simp, fun c hc => ?_⟩
    rcases List.mem_append.1 hc with hc | hc
    · rw [List.eq_of_mem_replicate hc]
      rfl
    · exact Nat.isDigit_of_mem_toDigits (by decide) (by decide) hc
  refine ⟨ν, by rw [hν, String.toList_ofList], ?_⟩
  rw [← ofDigits_text, hν, String.toList_ofList, Phase.ofDigits, ← Nat.ofDigitChars_eq_foldl,
    Nat.ofDigitChars_append, Nat.ofDigitChars_replicate_zero, Nat.mul_zero,
    Nat.ofDigitChars_ten_toDigits]

end Numeral

namespace Phase

variable {tag : String} {n : Nat}

/-- What is refused before it is read is what is no numeral. -/
theorem unread_iff : (tag.toList.isEmpty || !tag.toList.all Char.isDigit) = true
    ↔ ∀ ν : Numeral, ν.text ≠ tag := by
  rw [← not_exists, Numeral.exists_text_iff, ← Bool.not_eq_false, Bool.or_eq_false_iff,
    List.isEmpty_eq_false_iff, Bool.not_eq_false', List.all_eq_true]

theorem parse_of_forall_ne (h : ∀ ν : Numeral, ν.text ≠ tag) :
    parse tag = .error (.notDecimal tag) :=
  if_pos (unread_iff.2 h)

/-- A numeral is read as its value if that has 32 bits. -/
theorem parse_text (ν : Numeral) :
    parse ν.text = if ν.value < 2 ^ 32 then .ok ν.value else .error (.outOfRange ν.text) := by
  have hread : ¬ (ν.text.toList.isEmpty || !ν.text.toList.all Char.isDigit) = true :=
    fun h => unread_iff.1 h ν rfl
  have hfits : maxNumber < ν.value ↔ ¬ ν.value < 2 ^ 32 := by
    unfold maxNumber
    omega
  unfold parse
  simp only [if_neg hread, ν.ofDigits_text, hfits, ite_not]

/-- A tag is a numeral of 32 bits, a numeral that is too great, or no numeral. -/
theorem parse_cases (tag : String) :
    (∃ ν : Numeral, ν.text = tag ∧ ν.value < 2 ^ 32 ∧ parse tag = .ok ν.value)
      ∨ (∃ ν : Numeral, ν.text = tag ∧ 2 ^ 32 ≤ ν.value ∧ parse tag = .error (.outOfRange tag))
      ∨ (∀ ν : Numeral, ν.text ≠ tag) ∧ parse tag = .error (.notDecimal tag) := by
  by_cases h : ∃ ν : Numeral, ν.text = tag
  · obtain ⟨ν, rfl⟩ := h
    rcases Nat.lt_or_ge ν.value (2 ^ 32) with hlt | hge
    · exact .inl ⟨ν, rfl, hlt, by rw [parse_text, if_pos hlt]⟩
    · exact .inr (.inl ⟨ν, rfl, hge, by rw [parse_text, if_neg hge.not_gt]⟩)
  · rw [not_exists] at h
    exact .inr (.inr ⟨h, parse_of_forall_ne h⟩)

theorem parse_eq_ok_iff :
    parse tag = .ok n ↔ ∃ ν : Numeral, ν.text = tag ∧ ν.value = n ∧ n < 2 ^ 32 := by
  constructor
  · intro h
    rcases parse_cases tag with ⟨ν, hν, hlt, hok⟩ | ⟨-, -, -, herr⟩ | ⟨-, herr⟩
    · obtain rfl : ν.value = n := Except.ok.inj (hok.symm.trans h)
      exact ⟨ν, hν, rfl, hlt⟩
    · exact absurd (herr.symm.trans h) nofun
    · exact absurd (herr.symm.trans h) nofun
  · rintro ⟨ν, rfl, rfl, hlt⟩
    rw [parse_text, if_pos hlt]

/-- The tags of a number are its printed form behind any number of zeros. -/
theorem parse_eq_ok_iff_zeros : parse tag = .ok n
    ↔ n < 2 ^ 32 ∧ ∃ k, tag.toList = List.replicate k '0' ++ (toString n).toList := by
  rw [parse_eq_ok_iff, Nat.toString_eq_repr, Nat.toList_repr]
  constructor
  · rintro ⟨ν, rfl, rfl, hlt⟩
    obtain ⟨k, hk⟩ := Numeral.exists_zeros ν.ne_nil
    exact ⟨hlt, k, by rw [Numeral.toList_text, hk, Numeral.value]⟩
  · rintro ⟨hlt, k, hk⟩
    obtain ⟨ν, hν, hval⟩ := Numeral.exists_eq_zeros k n
    exact ⟨ν, String.toList_inj.1 (hν.trans hk.symm), hval, hlt⟩

theorem parse_toString (h : n < 2 ^ 32) : parse (toString n) = .ok n :=
  parse_eq_ok_iff_zeros.2 ⟨h, 0, rfl⟩

theorem parse_eq_notDecimal_iff :
    parse tag = .error (.notDecimal tag) ↔ ∀ ν : Numeral, ν.text ≠ tag := by
  refine ⟨fun h => ?_, parse_of_forall_ne⟩
  rintro ν rfl
  rw [parse_text] at h
  split_ifs at h
  cases h

theorem parse_eq_outOfRange_iff :
    parse tag = .error (.outOfRange tag) ↔ ∃ ν : Numeral, ν.text = tag ∧ 2 ^ 32 ≤ ν.value := by
  constructor
  · intro h
    rcases parse_cases tag with ⟨ν, -, -, hok⟩ | ⟨ν, hν, hge, -⟩ | ⟨-, herr⟩
    · exact absurd (hok.symm.trans h) nofun
    · exact ⟨ν, hν, hge⟩
    · exact absurd (herr.symm.trans h) nofun
  · rintro ⟨ν, rfl, hge⟩
    rw [parse_text, if_neg hge.not_gt]

end Phase

namespace Module

variable {m m' : Module} {f : FunctionId}

theorem phaseOf_of_phaseTag? (h : phaseTag? m' f = phaseTag? m f) :
    phaseOf m' f = phaseOf m f := by
  rw [phaseOf, phaseOf, h]

theorem index_lt_of_contains (hf : m.contains f) : f.index < m.slots.size := by
  by_contra hge
  simp [contains, function?, Array.getElem?_eq_none (Nat.le_of_not_lt hge)] at hf

/-- No step changes the tag of a function. -/
theorem Step.phaseOf_eq (h : Step m m') (hf : m.contains f) (hf' : m'.contains f) :
    phaseOf m' f = phaseOf m f := by
  cases h with
  | add _ g =>
    rcases m.add_cases g with hadd | ⟨-, hadd⟩ <;> rw [hadd]
    have hne : f ≠ ⟨m.slots.size⟩ := by
      rintro rfl
      exact Nat.lt_irrefl _ (index_lt_of_contains hf)
    apply phaseOf_of_phaseTag?
    simp only [phaseTag?, function?_push, if_neg hne]
  | append _ g is =>
    rcases m.append_cases g is with happ | ⟨-, new, happ⟩ <;> rw [happ]
    apply phaseOf_of_phaseTag?
    simp only [phaseTag?, function?_setBody]
    split_ifs with hfg
    · subst hfg
      simp only [Option.bind_map]
      rfl
    · rfl
  | remove _ g =>
    rw [contains_remove, Bool.and_eq_true, decide_eq_true_eq] at hf'
    apply phaseOf_of_phaseTag?
    simp only [phaseTag?, function?_remove, if_neg hf'.2]
  | splice _ s =>
    rcases m.splice_cases s with ⟨r, -, hs⟩ | ⟨caller, callee, g, -, -, -, hs⟩
    · rw [hs]
    · exact phaseOf_of_header? (hs.header?_eq f)

theorem phaseOf_of_steps (h : ReflTransGen Step m m') (hf : m.contains f)
    (hf' : m'.contains f) : phaseOf m' f = phaseOf m f := by
  induction h with
  | refl => rfl
  | @tail m₁ m₂ hsteps hstep ih =>
    have hf₁ : m₁.contains f := by
      by_contra hno
      have hlt := (index_lt_of_contains hf).trans_le (ages_of_steps hsteps).size_le
      have hgone := hstep.ages.not_contains hlt (Bool.eq_false_iff.2 hno)
      exact Bool.eq_false_iff.1 hgone hf'
    rw [hstep.phaseOf_eq hf₁ hf', ih hf₁]

theorem phaseOf_of_edits (h : ReflTransGen Edits m m') (hf : m.contains f)
    (hf' : m'.contains f) : phaseOf m' f = phaseOf m f :=
  phaseOf_of_steps (reflTransGen_closed (fun _ _ he => he.steps) _ _ h) hf hf'

theorem function?_of_add {g : Function} (h : m.add g = (.ok f, m')) :
    ∃ g', m'.function? f = some g' ∧ g'.attributes = g.attributes := by
  unfold add at h
  rcases hfault : m.addFault? g with _ | fault
  · rw [hfault] at h
    obtain ⟨hid, rfl⟩ := Prod.mk.inj h
    obtain rfl : (m.push g).1 = f := Except.ok.inj hid
    exact ⟨_, (function?_push g _).trans (if_pos rfl), rfl⟩
  · rw [hfault] at h
    exact absurd (Prod.mk.inj h).1 nofun

/-- A function that is added with a mark is there, and is found marked so. -/
theorem phaseOf_of_add {n : Nat} (hn : n < 2 ^ 32) {g : Function}
    (h : m.add (g.withPhase n) = (.ok f, m')) :
    m'.contains f ∧ phaseOf m' f = .ok (some n) := by
  obtain ⟨g', hg', hattr⟩ := function?_of_add h
  have htag : phaseTag? m' f = some (toString n) := by
    have hsame : g'.phaseTag? = (g.withPhase n).phaseTag? := by
      rw [Function.phaseTag?, Function.attribute?, hattr]
      rfl
    simp [phaseTag?, hg', hsame]
  refine ⟨contains_iff.2 ⟨g', hg'⟩, ?_⟩
  simp only [phaseOf, htag, Phase.parse_toString hn]

end Module

/-- Tags are read by the grammar of decimal numerals: a numeral of 32 bits as its value, with zeros
in front or without, and anything else not at all. A function that is added with a mark is found
marked for that phase and no other, then and for as long as it is there. -/
theorem phase_tags_exact :
    (∀ tag n, Phase.parse tag = .ok n
        ↔ ∃ ν : Numeral, ν.text = tag ∧ ν.value = n ∧ n < 2 ^ 32)
      ∧ (∀ tag, Phase.parse tag = .error (.notDecimal tag) ↔ ∀ ν : Numeral, ν.text ≠ tag)
      ∧ (∀ tag, Phase.parse tag = .error (.outOfRange tag)
        ↔ ∃ ν : Numeral, ν.text = tag ∧ 2 ^ 32 ≤ ν.value)
      ∧ (∀ tag n, Phase.parse tag = .ok n
        ↔ n < 2 ^ 32 ∧ ∃ k, tag.toList = List.replicate k '0' ++ (toString n).toList)
      ∧ ∀ n < 2 ^ 32, ∀ (g : Function) (m m' : Module) (f : FunctionId),
        m.add (g.withPhase n) = (.ok f, m') → m'.contains f
          ∧ ∀ m'', ReflTransGen Module.Edits m' m'' → m''.contains f →
            phaseOf m'' f = .ok (some n) ∧ ∀ p, isMarked p m'' f = .ok (decide (p = n)) := by
  refine ⟨fun _ _ => Phase.parse_eq_ok_iff, fun _ => Phase.parse_eq_notDecimal_iff,
    fun _ => Phase.parse_eq_outOfRange_iff, fun _ _ => Phase.parse_eq_ok_iff_zeros, ?_⟩
  intro n hn g m m' f hadd
  obtain ⟨hf, hphase⟩ := Module.phaseOf_of_add hn hadd
  refine ⟨hf, fun m'' hedits hf' => ?_⟩
  have hphase' : phaseOf m'' f = .ok (some n) :=
    (Module.phaseOf_of_edits hedits hf hf').trans hphase
  refine ⟨hphase', fun p => ?_⟩
  have heq : (some n == some p) = decide (p = n) := by
    rw [Option.some_beq_some, beq_eq_decide, decide_eq_decide, eq_comm]
  rw [isMarked, hphase', ← heq]
  rfl

/-- A function with a tag that says nothing is marked for the last phase of all and added. Lowering
the first phase leaves it there. -/
theorem phase_tags_exact_sample :
    let g : Function := { name := "late", attributes := [("lower-phase", "x1")] }
    let m := (Module.sample.add (g.withPhase 4294967295)).2
    let m' := (lower { phase := 1 } { target := m }).run.target
    Phase.parse "0004294967295" = .ok 4294967295
      ∧ Phase.parse "4294967296" = .error (.outOfRange "4294967296")
      ∧ Phase.parse "٣" = .error (.notDecimal "٣") ∧ (∀ ν : Numeral, ν.text ≠ "x1")
      ∧ m'.contains ⟨4⟩ ∧ phaseOf m' ⟨4⟩ = .ok (some 4294967295)
      ∧ isMarked 4294967295 m' ⟨4⟩ = .ok true ∧ isMarked 1 m' ⟨4⟩ = .ok false := by
  intro g m m'
  obtain ⟨hok, hnot, hout, -, hadd⟩ := phase_tags_exact
  have hnew : Module.sample.add (g.withPhase 4294967295) = (.ok ⟨4⟩, m) :=
    Prod.ext (by decide +kernel) rfl
  have hlower : ReflTransGen Module.Edits m m' :=
    .single (.lowers (.lower { phase := 1 } { target := m }))
  have hlive : m'.contains ⟨4⟩ := by decide +kernel
  obtain ⟨-, hlater⟩ := hadd 4294967295 (by decide) g _ m ⟨4⟩ hnew
  obtain ⟨hphase, hmarked⟩ := hlater m' hlower hlive
  refine ⟨(hok _ _).2 ⟨⟨[0, 0, 0, 4, 2, 9, 4, 9, 6, 7, 2, 9, 5], nofun⟩, by decide, by decide,
      by decide⟩, (hout _).2 ⟨⟨[4, 2, 9, 4, 9, 6, 7, 2, 9, 6], nofun⟩, by decide, by decide⟩,
    by decide, (hnot "x1").1 (by decide), hlive, hphase, hmarked _, hmarked _⟩

end PhasedInlining
