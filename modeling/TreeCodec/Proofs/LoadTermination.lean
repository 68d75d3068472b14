import TreeCodec.Proofs.LinkMeaning
import TreeCodec.Proofs.LoadUnit
import TreeCodec.Proofs.Waiting

/-!
Which loads end.

A load procedure hands its input on unchanged to the alternatives of a union and to what is in a box
or an option. A load does not end exactly if some procedure comes to wait in this way for itself on
the same input.
-/
namespace TreeCodec

namespace CompiledUnit

variable (U : CompiledUnit) (S : Schema)

-- A load procedure on an input waits for another one, or for itself, on an input.
def LoadNeeds (c d : Nat × Option Tree) : Prop :=
  Needs (U.loadBody S) c d

-- A load procedure on an input comes to wait for itself on that input.
def LoadCircular (c : Nat × Option Tree) : Prop :=
  Relation.TransGen (U.LoadNeeds S) c c

theorem load_finished_iff {i : Nat} {input : Option Tree} :
    (U.load S i input none).Finished ↔ ∃ n, (nest (U.loadBody S) n (i, input)).Finished := by
  simp only [← callLoad_eq_nest]
  refine ⟨fun h => ⟨U.loadBudget input + 1, ?_⟩, fun ⟨n, h⟩ => ?_⟩
  · simpa only [callLoad, load] using h
  · exact (U.callLoad_upto_load S n i input).finished h

end CompiledUnit

-- A number, or the negation of one.
def negation : Schema where
  declarations := [
    ("Tree", {
      names := .qualified "app" "Tree"
      definition := .union [
        { name := "Lit", ty := .scalar (.int .i64) },
        { name := "Neg", ty := .boxed (.declared "Tree") }] })]

-- A compiled load ends exactly if nothing that it waits for waits for itself.
theorem loadOr_finished_iff {S : Schema} {options : Options} {hooks : Hooks} {root : Ty} {l : Loader}
    (h : (compileLoader S options hooks root).result = .ok l) (input : Option Tree) :
    (l.loadOr S input none).Finished ↔
      ∀ c, Relation.ReflTransGen (l.unit.LoadNeeds S) (l.entry, input) c →
        ¬ l.unit.LoadCircular S c := by
  obtain ⟨_, _, hlink, hi⟩ := compileLoader_linked h
  obtain ⟨hcalls, hslot⟩ := Builder.link_closed hlink
  have hentry : l.entry ∈ List.range l.unit.loads.length := List.mem_range.mpr <| hslot _ _ hi
  have hdesc := l.unit.loads_descend S
  have hin : ∀ c d, c.1 ∈ List.range l.unit.loads.length → l.unit.LoadNeeds S c d →
      d.1 ∈ List.range l.unit.loads.length := by
    rintro c d hc ⟨n, ha⟩
    have hc := List.mem_range.mp hc
    have hp : l.unit.loadBody S c = fun call =>
        l.unit.loads[c.1].run S (fun i y => call (i, y)) c.2 none := by
      funext call
      simp only [CompiledUnit.loadBody, List.getElem?_eq_getElem hc]
    rw [hp] at ha
    have hm := (l.unit.loads[c.1].run_sequential S c.2).may_of_asks ha
    exact List.mem_range.mpr <| hcalls _ (List.getElem_mem hc) _ hm.left
  refine l.unit.load_finished_iff S |>.trans ⟨?_, hdesc.finished_of_acyclic hin hentry⟩
  rintro ⟨n, hf⟩ c hc
  rcases Relation.reflTransGen_iff_eq_or_transGen.mp hc with rfl | hc
  · exact hdesc.not_needs_itself hf
  · obtain ⟨_, _, hf⟩ := hdesc.finished_of_transGen hf hc
    exact hdesc.not_needs_itself hf

theorem loadOr_finished_iff_negation :
    ∃ l, (compileLoader negation {} {} (.declared "Tree")).result = .ok l ∧
      ((l.loadOr negation (some (.number (.int 1))) none).Finished ↔
        ∀ c, Relation.ReflTransGen (l.unit.LoadNeeds negation)
            (l.entry, some (.number (.int 1))) c →
          ¬ l.unit.LoadCircular negation c) := by
  have ⟨l, hl⟩ := Compiled.exists_ok (x := compileLoader negation {} {} (.declared "Tree"))
    (by decide +kernel)
  exact ⟨l, hl, loadOr_finished_iff hl _⟩

-- A text is not a number, so the box is tried, which tries the union on the text again.
theorem loadOr_not_finished_negation :
    ∃ l, (compileLoader negation {} {} (.declared "Tree")).result = .ok l ∧
      ¬ (l.loadOr negation (some (.text "x")) none).Finished := by
  have hrun : ((compileLoader negation {} {} (.declared "Tree")).result.map fun l =>
      decide ((l.loadOr negation (some (.text "x")) none).outcome = .unfinished)).toOption =
      some true := by
    decide +kernel
  cases hr : (compileLoader negation {} {} (.declared "Tree")).result with
  | error e => simp [hr, Except.map, Except.toOption] at hrun
  | ok l =>
    rw [hr] at hrun
    exact ⟨l, rfl, fun hf => hf <| of_decide_eq_true <| Option.some.inj hrun⟩

end TreeCodec
