import Mathlib.Data.List.Induction
import Mathlib.Data.List.Perm.Subperm
import PhasedInlining.CallGraph.Worklist
import PhasedInlining.Proofs.CallGraph.Snapshot

/-!
# Handing out callees first

While functions are handed out, the calls of a function still to be resolved are those to functions
not handed out yet (`Progress`). So a function becomes ready only after all it calls
(`CalleesFirst`), and at the end whatever is not ready calls something that is not ready either
(`calls_unresolved`). Conversely functions each of which calls another of them never become ready
(`not_mem_ready`).
-/

namespace PhasedInlining

namespace Worklist

/-- The functions handed out so far. -/
def handedOut (w : Worklist) : List FunctionId := w.ready.toList.take w.processed

section Resolve

/-- `w'` is `w` with one call resolved for each entry of `callers`. -/
structure Resolves (w : Worklist) (callers : List FunctionId) (w' : Worklist) : Prop where
  pending : ∀ f, w'.pending[f]? = w.pending[f]?.map (· - callers.count f)
  processed : w'.processed = w.processed
  ready : ∃ fresh, w'.ready.toList = w.ready.toList ++ fresh ∧ fresh.Nodup
    ∧ ∀ f, f ∈ fresh ↔ ∃ n, w.pending[f]? = some n ∧ 0 < n ∧ n ≤ callers.count f

theorem Resolves.nil (w : Worklist) : w.Resolves [] w := by
  refine ⟨fun f => ?_, rfl, [], (List.append_nil _).symm, List.nodup_nil, fun f => ?_⟩
  · simp
  · simp only [List.not_mem_nil, List.count_nil, false_iff, not_exists]
    omega

theorem Resolves.append {w w₁ w₂ : Worklist} {fs gs : List FunctionId} (h₁ : w.Resolves fs w₁)
    (h₂ : w₁.Resolves gs w₂) : w.Resolves (fs ++ gs) w₂ := by
  obtain ⟨new₁, hready₁, hnodup₁, hmem₁⟩ := h₁.ready
  obtain ⟨new₂, hready₂, hnodup₂, hmem₂⟩ := h₂.ready
  have hnew₂ : ∀ f, f ∈ new₂ ↔ ∃ n, w.pending[f]? = some n ∧ fs.count f < n
      ∧ n ≤ fs.count f + gs.count f := by
    intro f
    rw [hmem₂, h₁.pending]
    rcases w.pending[f]? with _ | n
    · simp
    · simp only [Option.map_some, Option.some.injEq, exists_eq_left']
      omega
  refine ⟨fun f => ?_, h₂.processed.trans h₁.processed, new₁ ++ new₂, ?_, ?_, fun f => ?_⟩
  · rw [h₂.pending, h₁.pending, Option.map_map, List.count_append]
    congr 1
    funext n
    simp only [Function.comp_apply]
    omega
  · rw [hready₂, hready₁, List.append_assoc]
  · refine List.nodup_append'.2 ⟨hnodup₁, hnodup₂, fun f hf₁ hf₂ => ?_⟩
    obtain ⟨n, hn, -, hle⟩ := (hmem₁ f).1 hf₁
    obtain ⟨n', hn', hlt, -⟩ := (hnew₂ f).1 hf₂
    rw [hn, Option.some.injEq] at hn'
    omega
  · rw [List.mem_append, hmem₁, hnew₂, List.count_append]
    rcases w.pending[f]? with _ | n
    · simp
    · simp only [Option.some.injEq, exists_eq_left']
      omega

namespace Resolves

variable {w w' : Worklist} {callers : List FunctionId} (h : w.Resolves callers w')
include h

/-- Ready is what has no call left, now as before. -/
theorem mem_ready (hready : ∀ f, f ∈ w.ready.toList ↔ w.pending[f]? = some 0) (f : FunctionId) :
    f ∈ w'.ready.toList ↔ w'.pending[f]? = some 0 := by
  obtain ⟨fresh, hfresh, -, hmem⟩ := h.ready
  rw [hfresh, List.mem_append, hready, hmem, h.pending]
  rcases w.pending[f]? with _ | n
  · simp
  · simp only [Option.some.injEq, exists_eq_left', Option.map_some]
    omega

theorem nodup (hready : ∀ f, f ∈ w.ready.toList ↔ w.pending[f]? = some 0)
    (hnodup : w.ready.toList.Nodup) : w'.ready.toList.Nodup := by
  obtain ⟨fresh, hfresh, hnodup', hmem⟩ := h.ready
  rw [hfresh]
  refine List.nodup_append'.2 ⟨hnodup, hnodup', fun f hf hf' => ?_⟩
  obtain ⟨n, hn, hpos, -⟩ := (hmem f).1 hf'
  rw [(hready f).1 hf, Option.some.injEq] at hn
  omega

theorem size_le : w.ready.size ≤ w'.ready.size := by
  obtain ⟨fresh, hfresh, -, -⟩ := h.ready
  rw [← Array.length_toList, ← Array.length_toList, hfresh, List.length_append]
  omega

theorem handedOut_eq (hle : w.processed ≤ w.ready.size) : w'.handedOut = w.handedOut := by
  obtain ⟨fresh, hfresh, -, -⟩ := h.ready
  rw [handedOut, handedOut, hfresh, h.processed, List.take_append_of_le_length (by simpa using hle)]

end Resolves

theorem pending_resolve (w : Worklist) (g f : FunctionId) : (w.resolve g).2.pending[f]?
    = if g = f then w.pending[f]?.map (· - 1) else w.pending[f]? := by
  unfold resolve
  by_cases h : g = f
  · subst h
    split <;> rename_i hg <;> simp [hg]
  · split <;> simp [Std.TreeMap.getElem?_insert, h]

theorem ready_resolve (w : Worklist) (g : FunctionId) : (w.resolve g).2.ready.toList
    = w.ready.toList ++ if w.pending[g]? = some 1 then [g] else [] := by
  unfold resolve
  split <;> rename_i hg <;> simp [hg]

theorem processed_resolve (w : Worklist) (g : FunctionId) :
    (w.resolve g).2.processed = w.processed := by
  unfold resolve
  split <;> rfl

theorem resolves_resolve (w : Worklist) (g : FunctionId) : w.Resolves [g] (w.resolve g).2 := by
  refine ⟨fun f => ?_, processed_resolve w g, _, ready_resolve w g, ?_, fun f => ?_⟩
  · rw [pending_resolve]
    by_cases h : g = f
    · simp [h]
    · simp [h]
  · split_ifs
    · exact List.nodup_singleton g
    · exact List.nodup_nil
  · by_cases h : g = f
    · subst h
      rcases w.pending[g]? with _ | n
      · simp
      · simp only [Option.some.injEq, List.count_cons_self, List.count_nil, exists_eq_left']
        split_ifs with hn
        · simp [hn]
        · simp only [List.not_mem_nil, false_iff]
          omega
    · have hcount : [g].count f = 0 := by simp [h]
      have hf : f ∉ if w.pending[g]? = some 1 then [g] else [] := by
        split_ifs <;> simp [Ne.symm h]
      simp only [hf, hcount, false_iff, not_exists]
      omega

theorem resolves_foldl : ∀ (fs : List FunctionId) (w : Worklist),
    w.Resolves fs (fs.foldl (fun w f => (w.resolve f).2) w)
  | [], w => .nil w
  | f :: fs, w => (resolves_resolve w f).append (resolves_foldl fs _)

theorem resolves_release (w : Worklist) (s : Snapshot) (c : FunctionId) :
    w.Resolves ((s.callsTo c).map (·.1)) (w.release s c) := by
  have h := resolves_foldl ((s.callsTo c).map (·.1)) w
  rwa [List.foldl_map] at h

end Resolve

section Progress

/-- Every function of the list stands behind all that it calls. -/
def CalleesFirst (es : List CallEdge) (fs : List FunctionId) : Prop :=
  ∀ pre f post, fs = pre ++ f :: post → ∀ e ∈ es, e.caller = f → e.target ∈ pre.map .direct

theorem CalleesFirst.append {es : List CallEdge} {fs gs : List FunctionId}
    (h : CalleesFirst es fs)
    (hgs : ∀ g ∈ gs, ∀ e ∈ es, e.caller = g → e.target ∈ fs.map .direct) :
    CalleesFirst es (fs ++ gs) := by
  intro pre f post hsplit e he hcaller
  rcases List.append_eq_append_iff.1 hsplit with ⟨as, rfl, has⟩ | ⟨as, hpre, has⟩
  · have hf : f ∈ gs := by simp [has]
    rw [List.map_append]
    exact List.mem_append_left _ (hgs f hf e he hcaller)
  · rcases as with _ | ⟨a, as⟩
    · have hf : f ∈ gs := by simp [← has.trans (List.nil_append gs)]
      rw [List.append_nil] at hpre
      exact hpre ▸ hgs f hf e he hcaller
    · rw [List.cons_append, List.cons.injEq] at has
      obtain ⟨rfl, -⟩ := has
      exact h pre f as hpre e he hcaller

/-- Of functions each of which calls another of them, none can be the first in such a list. -/
theorem CalleesFirst.not_mem {es : List CallEdge} {fs : List FunctionId} (h : CalleesFirst es fs)
    {U : FunctionId → Prop}
    (hU : ∀ f, U f → ∃ e ∈ es, e.caller = f ∧ ∃ c, e.target = .direct c ∧ U c)
    {f : FunctionId} (hf : f ∈ fs) : ¬ U f := by
  induction fs using List.reverseRecOn generalizing f with
  | nil => cases hf
  | append_singleton fs g ih =>
    have hfs : CalleesFirst es fs := by
      rintro pre f post rfl
      exact h pre f (post ++ [g]) (by simp)
    rcases List.mem_append.1 hf with hf | hf
    · exact ih hfs hf
    · rw [List.mem_singleton.1 hf]
      intro hg
      obtain ⟨e, he, hcaller, c, hc, hUc⟩ := hU g hg
      have hmem := h fs g [] rfl e he hcaller
      rw [hc] at hmem
      exact ih hfs (by simpa using hmem) hUc

/-- What holds of a worklist while functions are handed out, if `es` are the calls recorded. -/
structure Progress (s : Snapshot) (es : List CallEdge) (w : Worklist) : Prop where
  processed_le : w.processed ≤ w.ready.size
  pending : ∀ f, w.pending[f]? = if s.contains f
    then some (es.countP fun e => e.caller = f ∧ e.target ∉ w.handedOut.map .direct) else none
  mem_ready : ∀ f, f ∈ w.ready.toList ↔ w.pending[f]? = some 0
  nodup : w.ready.toList.Nodup
  calleesFirst : CalleesFirst es w.ready.toList

variable {s : Snapshot} {es : List CallEdge} {w : Worklist}

theorem Progress.contains_of_mem (h : Progress s es w) {f : FunctionId}
    (hf : f ∈ w.ready.toList) : s.contains f := by
  rw [h.mem_ready, h.pending] at hf
  split_ifs at hf with hs
  exact hs

theorem mem_sinks {f : FunctionId} : f ∈ s.sinks ↔ s.pending[f]? = some 0 := by
  simp [Snapshot.sinks]

theorem sinks_nodup (s : Snapshot) : s.sinks.Nodup := by
  refine List.pairwise_map.2 (Std.TreeMap.distinct_keys_toList.filter _ |>.imp fun hne heq => ?_)
  exact hne (by rw [heq, Std.LawfulEqCmp.compare_eq_iff_eq])

theorem progress_seed (h : s.Records es) : Progress s es (seed s) := by
  have hpending : ∀ f, s.pending[f]? = if s.contains f
      then some (es.countP fun e => e.caller = f) else none := by
    intro f
    split_ifs with hf
    · exact h.pending f hf
    · simpa [Snapshot.contains] using hf
  have hdone : (seed s).handedOut = [] := List.take_zero
  refine ⟨Nat.zero_le _, fun f => ?_, fun f => mem_sinks, sinks_nodup s,
    fun pre f post hsplit e he hcaller => ?_⟩
  · rw [hdone]
    simpa [seed] using hpending f
  · have hf : f ∈ s.sinks := by
      have : s.sinks = pre ++ f :: post := hsplit
      simp [this]
    rw [mem_sinks, hpending] at hf
    split_ifs at hf
    rw [Option.some.injEq, List.countP_eq_zero] at hf
    exact absurd hcaller (by simpa using hf e he)

theorem countP_split {D : List CallTarget} {t : CallTarget} (ht : t ∉ D) (f : FunctionId) :
    ∀ es : List CallEdge, es.countP (fun e => e.caller = f ∧ e.target ∉ D)
      = es.countP (fun e => e.caller = f ∧ e.target ∉ D ++ [t])
        + es.countP (fun e => e.caller = f ∧ e.target = t)
  | [] => rfl
  | e :: es => by
    simp only [List.countP_cons, countP_split ht f es, decide_eq_true_eq, List.mem_append,
      List.mem_singleton]
    by_cases hcaller : e.caller = f
    · by_cases he : e.target = t
      · have : e.target ∉ D := he ▸ ht
        simp only [hcaller, he, ht, or_true, not_true, not_false_eq_true, and_self, and_false,
           if_true, if_false]
        omega
      · by_cases hD : e.target ∈ D <;> simp only [hcaller, he, hD, or_false, not_true,
          not_false_eq_true, and_self, and_false, if_true, if_false] <;> omega
    · simp [hcaller]

theorem handedOut_next {c : FunctionId} {w' : Worklist} (h : w.ready.toList.Nodup)
    (hnext : w.next? = some (c, w')) : w'.ready = w.ready ∧ w'.pending = w.pending
      ∧ w'.processed = w.processed + 1 ∧ w'.processed ≤ w.ready.size
      ∧ w'.handedOut = w.handedOut ++ [c] ∧ c ∉ w.handedOut := by
  simp only [next?, Option.map_eq_some_iff, Prod.mk.injEq] at hnext
  obtain ⟨c, hc, rfl, rfl⟩ := hnext
  obtain ⟨hlt, -⟩ := Array.getElem?_eq_some_iff.1 hc
  have htake : w.ready.toList.take (w.processed + 1) = w.handedOut ++ [c] := by
    rw [List.take_add_one, Array.getElem?_toList, hc]
    rfl
  refine ⟨rfl, rfl, rfl, hlt, htake, fun hmem => ?_⟩
  have hnodup : (w.handedOut ++ [c]).Nodup := htake ▸ h.sublist (List.take_sublist _ _)
  exact (List.nodup_append'.1 hnodup).2.2 hmem (List.mem_singleton_self c)

theorem handedOut_release (h : Progress s es w) {c : FunctionId} {w' : Worklist}
    (hnext : w.next? = some (c, w')) : (w'.release s c).handedOut = w.handedOut ++ [c] := by
  obtain ⟨hready, -, -, hle, hdone, -⟩ := handedOut_next h.nodup hnext
  rw [← hdone, (resolves_release w' s c).handedOut_eq (by rwa [hready])]

theorem Progress.release (hs : s.Records es) (h : Progress s es w) {c : FunctionId}
    {w' : Worklist} (hnext : w.next? = some (c, w')) : Progress s es (w'.release s c) := by
  obtain ⟨hready, hpending, -, hle, hdone, hc⟩ := handedOut_next h.nodup hnext
  have hr := resolves_release w' s c
  obtain ⟨fresh, hfresh, -, -⟩ := hr.ready
  rw [hready] at hfresh
  have hcount : ∀ f, ((s.callsTo c).map (·.1)).count f
      = es.countP fun e => e.caller = f ∧ e.target = .direct c := by
    intro f
    rw [s.count_callsTo, hs.sites, List.length_map, List.countP_eq_length_filter]
  have hdone' := handedOut_release h hnext
  have hpending' : ∀ f, (w'.release s c).pending[f]? = if s.contains f
      then some (es.countP fun e => e.caller = f
        ∧ e.target ∉ (w'.release s c).handedOut.map .direct) else none := by
    intro f
    rw [hr.pending, hpending, h.pending, hdone', List.map_append, hcount]
    split_ifs
    · have hc' : CallTarget.direct c ∉ w.handedOut.map .direct := by simpa using hc
      rw [Option.map_some, countP_split hc' f es, Nat.add_sub_cancel]
      rfl
    · rfl
  have hmem : ∀ f, f ∈ w'.ready.toList ↔ w'.pending[f]? = some 0 := by
    rw [hready, hpending]
    exact h.mem_ready
  have hcallee : ∀ f ∈ fresh, ∀ e ∈ es, e.caller = f →
      e.target ∈ w.ready.toList.map .direct := by
    intro f hf e he hcaller
    have hf0 := (hr.mem_ready hmem f).1 (by rw [hfresh]; exact List.mem_append_right _ hf)
    rw [hpending'] at hf0
    split_ifs at hf0
    rw [Option.some.injEq, List.countP_eq_zero] at hf0
    have ht : e.target ∈ (w'.release s c).handedOut.map .direct := by
      simpa [hcaller] using hf0 e he
    rw [hdone', ← hdone, handedOut, hready] at ht
    exact List.map_subset _ (List.take_subset _ _) ht
  refine ⟨?_, hpending', hr.mem_ready hmem, hr.nodup hmem (hready ▸ h.nodup), ?_⟩
  · rw [hr.processed]
    exact hle.trans (hready ▸ hr.size_le)
  · rw [hfresh]
    exact h.calleesFirst.append hcallee

theorem Progress.size_le (h : Progress s es w) : w.ready.size ≤ s.functionCount := by
  have hsub : w.ready.toList ⊆ s.pending.keys := by
    intro f hf
    have := h.contains_of_mem hf
    rwa [Snapshot.contains, Std.TreeMap.contains_iff_mem, ← Std.TreeMap.mem_keys] at this
  have hle := (List.subperm_of_subset h.nodup hsub).length_le
  rwa [Array.length_toList, Std.TreeMap.length_keys] at hle

theorem progress_drainFrom (hs : s.Records es) : ∀ (fuel : Nat) {w : Worklist},
    Progress s es w → s.functionCount ≤ w.processed + fuel →
      Progress s es (drainFrom s fuel w)
        ∧ (drainFrom s fuel w).processed = (drainFrom s fuel w).ready.size
  | 0, w, h, hfuel => by
    have hle := h.processed_le
    have hsize := h.size_le
    exact ⟨h, by simp only [drainFrom]; omega⟩
  | fuel + 1, w, h, hfuel => by
    unfold drainFrom
    rcases hn : w.next? with _ | ⟨c, w'⟩
    · have hle := h.processed_le
      have hend : w.ready.size ≤ w.processed := by simpa [next?] using hn
      exact ⟨h, by simp only []; omega⟩
    · have hprocessed : w'.processed = w.processed + 1 := by
        simp only [next?, Option.map_eq_some_iff, Prod.mk.injEq] at hn
        obtain ⟨f, -, -, rfl⟩ := hn
        rfl
      refine progress_drainFrom hs fuel (h.release hs hn) ?_
      rw [(resolves_release w' s c).processed]
      omega

end Progress

theorem mem_unresolved {w : Worklist} {f : FunctionId} :
    f ∈ w.unresolved ↔ ∃ n, w.pending[f]? = some n ∧ 0 < n := by
  simp [unresolved]

/-- A worklist has the functions of a snapshot if it counts calls for the same ones. -/
theorem total_eq {w : Worklist} {s : Snapshot}
    (h : ∀ f : FunctionId, w.pending[f]?.isSome = s.pending[f]?.isSome) :
    w.total = s.functionCount := by
  have hkeys : w.pending.keys.Perm s.pending.keys := by
    refine (List.perm_ext_iff_of_nodup Std.TreeMap.nodup_keys Std.TreeMap.nodup_keys).2 fun f => ?_
    rw [Std.TreeMap.mem_keys, Std.TreeMap.mem_keys, Std.TreeMap.mem_iff_isSome_getElem?,
      Std.TreeMap.mem_iff_isSome_getElem?, h]
  simpa [total, Snapshot.functionCount] using hkeys.length_eq

/-- Every function is ready or unresolved. -/
theorem ready_add_unresolved {w : Worklist} (hnodup : w.ready.toList.Nodup)
    (hmem : ∀ f, f ∈ w.ready.toList ↔ w.pending[f]? = some 0) :
    w.ready.size + w.unresolved.length = w.total := by
  have hready : w.ready.toList.Perm ((w.pending.toList.filter (·.2 = 0)).map (·.1)) := by
    refine (List.perm_ext_iff_of_nodup hnodup ?_).2 fun f => ?_
    · refine List.pairwise_map.2 ((Std.TreeMap.distinct_keys_toList.filter _).imp fun hne heq => ?_)
      exact hne (by rw [heq, Std.LawfulEqCmp.compare_eq_iff_eq])
    · simp [hmem]
  have hzero : (fun e : FunctionId × Nat => decide ¬ decide (e.2 = 0) = true)
      = fun e => decide (0 < e.2) := by
    funext e
    simp [Nat.pos_iff_ne_zero]
  have hsplit := w.pending.toList.length_eq_countP_add_countP (·.2 = 0)
  rw [hzero, List.countP_eq_length_filter, List.countP_eq_length_filter] at hsplit
  rw [← Array.length_toList, hready.length_eq, total, ← Std.TreeMap.length_toList, hsplit,
    unresolved, List.length_map, List.length_map]

end Worklist

namespace Snapshot

open Worklist

section Drain

variable {s : Snapshot} {es : List CallEdge} (h : s.Records es) {f : FunctionId}
include h

theorem progress_drain : Progress s es s.drain ∧ s.drain.processed = s.drain.ready.size :=
  progress_drainFrom h s.functionCount (progress_seed h) (by simp [seed])

/-- In the end a function is ready or unresolved. -/
theorem contains_iff_drained :
    s.contains f ↔ f ∈ s.drain.ready.toList ∨ f ∈ s.drain.unresolved := by
  have hp := (progress_drain h).1
  rw [hp.mem_ready, mem_unresolved, hp.pending]
  split_ifs with hs
  · simp only [hs, Option.some.injEq, exists_eq_left', true_iff]
    omega
  · simp [hs]

theorem not_mem_ready_of_unresolved (hf : f ∈ s.drain.unresolved) :
    f ∉ s.drain.ready.toList := by
  obtain ⟨n, hn, hpos⟩ := mem_unresolved.1 hf
  rw [(progress_drain h).1.mem_ready, hn, Option.some.injEq]
  omega

/-- What is never resolved calls something that is never resolved. -/
theorem calls_unresolved (hf : f ∈ s.drain.unresolved) : ∃ e ∈ es, e.caller = f
    ∧ ∃ c ∈ s.drain.unresolved, e.target = .direct c := by
  obtain ⟨hp, hend⟩ := progress_drain h
  obtain ⟨n, hn, hpos⟩ := mem_unresolved.1 hf
  have hdone : s.drain.handedOut = s.drain.ready.toList := by
    rw [handedOut, hend]
    exact List.take_length
  rw [hp.pending, hdone] at hn
  split_ifs at hn
  rw [Option.some.injEq] at hn
  rw [← hn, List.countP_pos_iff] at hpos
  obtain ⟨e, he, hpe⟩ := hpos
  obtain ⟨hcaller, htarget⟩ := of_decide_eq_true hpe
  obtain ⟨c, hc, -, hcontains⟩ := shows_eq_true.1 (h.shows e he)
  refine ⟨e, he, hcaller, c, ?_, hc⟩
  refine ((contains_iff_drained h).1 hcontains).resolve_left fun hready => htarget ?_
  rw [hc]
  exact List.mem_map_of_mem hready

/-- Functions each of which calls another of them are never ready. -/
theorem not_mem_ready {U : FunctionId → Prop}
    (hU : ∀ f, U f → ∃ e ∈ es, e.caller = f ∧ ∃ c, e.target = .direct c ∧ U c) (hf : U f) :
    f ∉ s.drain.ready.toList :=
  fun hmem => (progress_drain h).1.calleesFirst.not_mem hU hmem hf

end Drain

end Snapshot

namespace Module.WellFormed

open Snapshot CallSource

variable {m : Module} (h : m.WellFormed) {f c : FunctionId} {x : CallSiteId}
include h

theorem mem_shown {e : CallEdge} : e ∈ (callEdges m).filter (ofSource m).shows ↔
    ∃ c, e.target = .direct c ∧ m.hasBody c ∧ .call e.site (.direct c) ∈ m.instrsOf e.caller := by
  simp only [List.mem_filter, shows_eq_true, contains_ofModule h]
  constructor
  · rintro ⟨he, c, hc, -, hbody⟩
    exact ⟨c, hc, hbody, hc ▸ h.mem_callEdges.1 he⟩
  · rintro ⟨c, hc, hbody, hx⟩
    exact ⟨h.mem_callEdges.2 (hc ▸ hx), c, hc, hasBody_of_mem hx, hbody⟩

theorem hasBody_iff_drained : m.hasBody f ↔
    f ∈ (ofSource m).drain.ready.toList ∨ f ∈ (ofSource m).drain.unresolved := by
  rw [← contains_ofModule h, contains_iff_drained (records_ofSource m)]

/-- A function is handed out after all functions with bodies that it calls. -/
theorem callee_before {pre post : List FunctionId}
    (hsplit : (ofSource m).drain.ready.toList = pre ++ f :: post)
    (hx : .call x (.direct c) ∈ m.instrsOf f) (hc : m.hasBody c) : c ∈ pre := by
  have hmem := (progress_drain (records_ofSource m)).1.calleesFirst pre f post hsplit
    ⟨f, .direct c, x⟩ (h.mem_shown.2 ⟨c, rfl, hc, hx⟩) rfl
  simpa using hmem

theorem unresolved_calls (hf : f ∈ (ofSource m).drain.unresolved) :
    ∃ x, ∃ c ∈ (ofSource m).drain.unresolved, .call x (.direct c) ∈ m.instrsOf f := by
  obtain ⟨e, he, rfl, c, hc, ht⟩ := calls_unresolved (records_ofSource m) hf
  obtain ⟨c', ht', -, hx⟩ := h.mem_shown.1 he
  cases ht.symm.trans ht'
  exact ⟨e.site, c, hc, hx⟩

theorem not_mem_drain {U : FunctionId → Prop}
    (hU : ∀ f, U f → ∃ x c, .call x (.direct c) ∈ m.instrsOf f ∧ m.hasBody c ∧ U c) (hf : U f) :
    f ∉ (ofSource m).drain.ready.toList := by
  refine not_mem_ready (records_ofSource m) (U := U) (fun f hf => ?_) hf
  obtain ⟨x, c, hx, hc, hUc⟩ := hU f hf
  exact ⟨⟨f, .direct c, x⟩, h.mem_shown.2 ⟨c, rfl, hc, hx⟩, rfl, c, rfl, hUc⟩

end Module.WellFormed

end PhasedInlining
