import TreeCodec.Proofs.BodyParts
import TreeCodec.Proofs.ClosedUnit
import TreeCodec.Proofs.LinkMeaning
import TreeCodec.Proofs.LoadUnit

/-!
What stands in the linked procedures of a compiled loader: every expression in them was linked from
one in the body of a target.
-/
namespace TreeCodec

section Linked

variable {L : Linker} {x : String} {n : Nat}

theorem AssignmentsLinked.exists_expr {stmts : List Stmt} {as : List Assignment}
    (h : AssignmentsLinked L x n stmts as) :
    ∀ a ∈ as, ∃ stmt ∈ stmts, ∃ e ∈ stmt.exprs, LoadLinked L [x] e a.value := by
  induction h with
  | nil => nofun
  | cons _ he _ _ ih =>
    refine List.forall_mem_cons.mpr ⟨⟨_, List.mem_cons_self .., ?_⟩, fun a ha => ?_⟩
    · exact ⟨_, List.mem_singleton_self _, he⟩
    · have ⟨stmt, hs, hstmt⟩ := ih a ha
      exact ⟨stmt, List.mem_cons_of_mem _ hs, hstmt⟩

theorem LoadResultLinked.exists_expr {stmt : Stmt} {r : LoadResult}
    (h : LoadResultLinked L x n stmt r) :
    ∀ le, r = .value le → ∃ e ∈ stmt.exprs, LoadLinked L [x] e le := by
  rintro le rfl
  cases h with
  | value he => exact ⟨_, List.mem_singleton_self _, he⟩

theorem LoadBodyLinked.all {P : LoadExpr → Prop} {body : List Stmt} {q : LoadProcedure}
    (h : LoadBodyLinked L x body q)
    (hP : ∀ stmt ∈ body, ∀ e ∈ stmt.exprs, ∀ le, LoadLinked L [x] e le → P le) : q.All P := by
  cases h with
  | mk _ hassigns hresult =>
    constructor
    case assignments =>
      intro a ha
      have ⟨stmt, hs, e, he, hle⟩ := hassigns.exists_expr a ha
      exact hP stmt (by simp [hs]) e he _ hle
    case result =>
      intro le hr
      have ⟨e, he, hle⟩ := hresult.exists_expr le hr
      exact hP _ (by simp) e he le hle

end Linked

-- What holds of all that is linked from the bodies of targets holds of all that a loader runs.
theorem compileLoader_all {S : Schema} {options : Options} {hooks : Hooks} {root : Ty}
    {l : Loader} {P : LoadExpr → Prop} (h : (compileLoader S options hooks root).result = .ok l)
    (hP : ∀ {name? key p}, ProcedureFor ⟨S, .load, hooks, options⟩ name? key p →
      IsTarget ⟨S, .load, hooks, options⟩ root key →
      ∀ e uses, BodyExpr ⟨S, .load, hooks, options⟩ name? key e uses →
      ∀ scope le, LoadLinked ⟨S, l.unit.slots, p.locals⟩ scope e le → P le) :
    ∀ q ∈ l.unit.loads, q.All P := by
  have ⟨source, hs, hlink, _⟩ := compileLoader_linked h
  have ⟨g, hc, hw, hg⟩ := compileProcedures_walked hs
  have ⟨keys, _, hkeys, hmade⟩ := hc.exists_targets hw hg
  intro q hq
  have ⟨p, hp, hload⟩ := exists_of_forall₂ (Builder.linked_of_link hlink).loads.flip q hq
  have ⟨key, hkey, _, hfor⟩ := exists_of_forall₂ hmade.flip p (List.mem_of_mem_filter hp)
  have ⟨_, _, _, hbody⟩ := Linker.loadProcedure_linked hload
  refine hbody.all fun stmt hs e he le hle => ?_
  have ⟨uses, hexpr, _⟩ := hfor.body.parts.exprs stmt hs e he
  exact hP hfor ((hkeys key).mp hkey) e uses hexpr _ le hle

end TreeCodec
