import PhasedInlining.Target.Plain

/-!
# Targets that deviate

A module whose answers differ in given ways from the truth. It stands for a target that is
incomplete, careless or dishonest, and behaves as the module where no deviation applies.
-/

namespace PhasedInlining

/-- How the answers of a target differ from those of its module. -/
structure Deviation where
  /-- Functions that are not listed. -/
  hidden : List FunctionId := []
  /-- Handles listed after the functions. -/
  extraIds : List FunctionId := []
  /-- Calls reported after those of the module. -/
  extraEdges : List CallEdge := []
  /-- Functions and calls are listed back to front. -/
  reversed : Bool := false
  /-- Functions said to have no body. -/
  bodyless : List FunctionId := []
  /-- Functions said to have no name. -/
  nameless : List FunctionId := []
  /-- Phase tags that take the place of a function's own. -/
  tags : List (FunctionId × Option String) := []
  /-- Functions said to be protected. -/
  guarded : List FunctionId := []
  /-- Functions that are never removed. -/
  unerasable : List FunctionId := []
  /-- Callees that are not inlined, with the reason given. -/
  refuse : List (FunctionId × String) := []
  /-- Callees said to be inlined while nothing happens. -/
  fake : List FunctionId := []
  /-- Callees whose inlining removes another function. -/
  vanish : List (FunctionId × FunctionId) := []

structure Deviating where
  module : Module
  deviation : Deviation := {}

namespace Deviating

/-- A list as the target shows it. -/
def listed {α : Type} (d : Deviating) (xs : List α) : List α :=
  if d.deviation.reversed then xs.reverse else xs

/-- A change of the module behind the target, with the answer to it. -/
def within {α : Type} (d : Deviating) (change : Module → α × Module) : α × Deviating :=
  let { module, deviation } := d
  let (answer, module) := change module
  (answer, { module, deviation })

def inline (d : Deviating) (s : CallSiteId) : InlineAnswer × Deviating :=
  match d.module.currentCallee? s with
  | none => d.within (Target.inline · s)
  | some callee =>
    match d.deviation.refuse.lookup callee with
    | some reason => (.refused reason, d)
    | none =>
      if d.deviation.fake.contains callee then (.done, d)
      else
        let victim? := d.deviation.vanish.lookup callee
        match d.within (Target.inline · s), victim? with
        | (.done, d), some victim => (.done, (d.within (Target.erase · victim)).2)
        | result, _ => result

instance : Target Deviating where
  functionIds d := d.listed
    (d.module.functionIds.filter (!d.deviation.hidden.contains ·) ++ d.deviation.extraIds)
  hasBody d f := !d.deviation.bodyless.contains f && d.module.hasBody f
  name? d f := if d.deviation.nameless.contains f then none else CallSource.name? d.module f
  callEdges d := d.listed (d.module.callEdges ++ d.deviation.extraEdges)
  currentCallee? d s := d.module.currentCallee? s
  phaseTag? d f := (d.deviation.tags.lookup f).getD (Target.phaseTag? d.module f)
  isProtected d f := d.deviation.guarded.contains f || Target.isProtected d.module f
  usesIn d f := d.module.usesIn f
  inline := inline
  erase d f := if d.deviation.unerasable.contains f then (false, d) else d.within (Target.erase · f)

end Deviating

end PhasedInlining
