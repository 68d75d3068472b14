import TreeCodec.Proofs.Resolution

/-!
Which linked procedure belongs to a procedure, statement by statement.
-/
namespace TreeCodec

variable (L : Linker) (x : String)

/-! ## Loading -/

inductive DefaultLinked : Option String → Option Value → Prop
  | none : DefaultLinked none none
  | some {name : String} {v : Value} :
    Keyed.get? name L.locals = some (.default v) → DefaultLinked (some name) (some v)

-- The statements that fill the slots from a number on.
inductive AssignmentsLinked : Nat → List Stmt → List Assignment → Prop
  | nil {slot : Nat} : AssignmentsLinked slot [] []
  | cons {slot : Nat} {arg : Operand} {e : Expr} {default : Option String} {stmts : List Stmt}
      {s : LoadSource} {le : LoadExpr} {v : Option Value} {as : List Assignment} :
    s.Resolves [x] arg → LoadLinked L [x] e le → DefaultLinked L default v →
    AssignmentsLinked (slot + 1) stmts as →
    AssignmentsLinked slot (.assign slot arg e default :: stmts) (⟨s, le, v⟩ :: as)

inductive ChecksLinked (x : String) : List Stmt → Option Expectation → Option (List String) → Prop
  | none : ChecksLinked x [] none none
  | mapping : ChecksLinked x [.beginMapping (.var x)] (some .mapping) none
  | knownKeys {keys : List String} :
    ChecksLinked x [.beginMapping (.var x), .rejectUnknownKeys (.var x) keys] (some .mapping)
      (some keys)
  | sequence {min len : Nat} : min ≤ len →
    ChecksLinked x [.beginSequence (.var x) min len] (some (.sequence min len)) none

-- What a body ends with after a number of slots.
inductive LoadResultLinked : Nat → Stmt → LoadResult → Prop
  | record {cls : String} {t : Ty} {fields : List Field} {positional : Bool} :
    Meaning.typeOf? L.locals cls = some t → L.schema.shape t = .record fields positional →
    LoadResultLinked fields.length (.construct cls) (.construct t)
  | tuple {cls : String} {t : Ty} {elements : List Ty} :
    Meaning.typeOf? L.locals cls = some t → L.schema.shape t = .tuple elements →
    LoadResultLinked elements.length (.construct cls) (.construct t)
  | value {e : Expr} {le : LoadExpr} :
    LoadLinked L [x] e le → LoadResultLinked 0 (.returnValue e) (.value le)

inductive LoadBodyLinked : List Stmt → LoadProcedure → Prop
  | mk {checks assigns : List Stmt} {last : Stmt} {q : LoadProcedure} :
    ChecksLinked x checks q.expectation q.knownKeys →
    AssignmentsLinked L x 0 assigns q.assignments →
    LoadResultLinked L x q.assignments.length last q.result →
    LoadBodyLinked (checks ++ (assigns ++ [last])) q

/-! ## Dumping -/

inductive InsertionsLinked : List Stmt → List Insertion → Prop
  | nil : InsertionsLinked [] []
  | cons {key : String} {e : Expr} {omitNull : Bool} {stmts : List Stmt} {de : DumpExpr}
      {is : List Insertion} :
    DumpLinked L [x] e de → InsertionsLinked stmts is →
    InsertionsLinked (.insert key e omitNull :: stmts) (⟨key, de, omitNull⟩ :: is)

inductive PushesLinked : List Stmt → List DumpExpr → Prop
  | nil : PushesLinked [] []
  | cons {e : Expr} {stmts : List Stmt} {de : DumpExpr} {des : List DumpExpr} :
    DumpLinked L [x] e de → PushesLinked stmts des → PushesLinked (.push e :: stmts) (de :: des)

inductive DumpBodyLinked : List Stmt → DumpBody → Prop
  | mapping {stmts : List Stmt} {is : List Insertion} :
    InsertionsLinked L x stmts is →
    DumpBodyLinked (.openMapping :: (stmts ++ [.returnOutput])) (.mapping is)
  | sequence {stmts : List Stmt} {des : List DumpExpr} :
    PushesLinked L x stmts des →
    DumpBodyLinked (.openSequence :: (stmts ++ [.returnOutput])) (.sequence des)
  | value {e : Expr} {de : DumpExpr} :
    DumpLinked L [x] e de → DumpBodyLinked [.returnValue e] (.value de)

/-! ## What the linker gives -/

namespace Linker

variable {L x} {stmts rest : List Stmt}

theorem valueParam?_of_parameter {s : Signature} (h : parameter s = .ok x) :
    s.valueParam? = some x := by
  unfold parameter at h
  split at h <;> simp_all

theorem eq_nil_of_nothing {u : Unit} (h : nothing stmts = .ok u) : stmts = [] := by
  cases stmts with
  | nil => rfl
  | cons => nomatch h

-- A check of something else than the parameter is left to the statements after the checks.
theorem expectation_linked {checked : Option Expectation}
    (h : expectation x stmts = .ok (checked, rest)) :
    ∃ checks, ChecksLinked x checks checked none ∧ stmts = checks ++ rest := by
  unfold expectation at h
  split at h
  case h_1 =>
    split at h
    case isTrue ha => cases ha; cases h; exact ⟨_, .mapping, rfl⟩
    case isFalse => cases h; exact ⟨[], .none, rfl⟩
  case h_2 min len _ =>
    split at h
    case isTrue ha =>
      split at h
      case isTrue => nomatch h
      case isFalse hlen => cases ha; cases h; exact ⟨_, .sequence (Nat.le_of_not_lt hlen), rfl⟩
    case isFalse => cases h; exact ⟨[], .none, rfl⟩
  case h_3 => cases h; exact ⟨[], .none, rfl⟩

theorem knownKeys_linked {checks : List Stmt} {checked : Option Expectation}
    {keys : Option (List String)} (hc : ChecksLinked x checks checked none)
    (h : knownKeys x checked stmts = .ok (keys, rest)) :
    ∃ checks', ChecksLinked x checks' checked keys ∧ checks ++ stmts = checks' ++ rest := by
  unfold knownKeys at h
  split at h
  case h_1 =>
    split at h
    case isTrue ha =>
      obtain ⟨rfl, rfl⟩ := ha
      cases h
      cases hc
      exact ⟨_, .knownKeys, rfl⟩
    case isFalse => nomatch h
  case h_2 => cases h; exact ⟨_, hc, rfl⟩

theorem assignments_linked {slot : Nat} {as : List Assignment}
    (h : L.assignments x slot stmts = .ok (as, rest)) :
    ∃ assigns, AssignmentsLinked L x slot assigns as ∧ stmts = assigns ++ rest := by
  induction stmts generalizing slot as with
  | nil => cases h; exact ⟨[], .nil, rfl⟩
  | cons stmt stmts ih =>
    cases stmt with
    | assign n arg e default =>
      simp only [assignments] at h
      split at h
      case isTrue =>
        obtain ⟨_, ht, _⟩ := exists_of_bind_eq_ok h
        cases ht
      case isFalse hn =>
        have hn : n = slot := by simpa using hn
        subst hn
        obtain ⟨v, hv, h⟩ : ∃ v, DefaultLinked L default v ∧ (do
            let source ← loadSource [x] arg
            let value ← L.loadExpr e [x]
            let assigned ← L.assignments x (n + 1) stmts
            return (⟨source, value, v⟩ :: assigned.1, assigned.2)) = Except.ok (as, rest) := by
          cases default with
          | none =>
            obtain ⟨v, hv, h⟩ := exists_of_bind_eq_ok h
            cases hv
            exact ⟨none, .none, h⟩
          | some name =>
            obtain ⟨v, hv, h⟩ := exists_of_bind_eq_ok h
            cases hd : L.default name with
            | error e =>
              rw [hd] at hv
              cases hv
            | ok w =>
              rw [hd] at hv
              cases hv
              exact ⟨some w, .some (get?_of_default hd), h⟩
        obtain ⟨s, hs, h⟩ := exists_of_bind_eq_ok h
        obtain ⟨le, he, h⟩ := exists_of_bind_eq_ok h
        obtain ⟨⟨as', rest'⟩, has, h⟩ := exists_of_bind_eq_ok h
        cases h
        obtain ⟨assigns, has, heq⟩ := ih has
        exact ⟨_, .cons (loadSource_resolves hs) (loadExpr_linked e he) hv has, by rw [heq]; rfl⟩
    | _ =>
      simp only [assignments] at h
      cases h
      exact ⟨[], .nil, rfl⟩

theorem loadResult_linked {n : Nat} {r : LoadResult}
    (h : L.loadResult x n stmts = .ok (r, rest)) :
    ∃ last, LoadResultLinked L x n last r ∧ stmts = last :: rest := by
  unfold loadResult at h
  split at h
  case h_1 cls stmts =>
    have ⟨t, ht, h⟩ := exists_of_bind_eq_ok h
    have ht := typeOf?_of_type ht
    split at h
    case h_1 hk =>
      have ⟨arity, ha, h⟩ := exists_of_bind_eq_ok h
      cases ha
      dsimp only at h
      split at h
      case isTrue hn => cases h; exact ⟨_, hn ▸ .record ht hk, rfl⟩
      case isFalse => nomatch h
    case h_2 hk =>
      have ⟨arity, ha, h⟩ := exists_of_bind_eq_ok h
      cases ha
      dsimp only at h
      split at h
      case isTrue hn => cases h; exact ⟨_, hn ▸ .tuple ht hk, rfl⟩
      case isFalse => nomatch h
    case h_3 =>
      have ⟨_, ha, _⟩ := exists_of_bind_eq_ok h
      nomatch ha
  case h_2 e stmts =>
    split at h
    case isTrue =>
      have ⟨_, ht, _⟩ := exists_of_bind_eq_ok h
      nomatch ht
    case isFalse hn =>
      have hn : n = 0 := by simpa using hn
      subst hn
      have ⟨le, he, h⟩ := exists_of_bind_eq_ok h
      cases h
      exact ⟨_, .value (loadExpr_linked e he), rfl⟩
  case h_3 => nomatch h
  case h_4 => nomatch h

theorem loadProcedure_linked {p : Procedure} {q : LoadProcedure} (h : L.loadProcedure p = .ok q) :
    q.name = p.name ∧ ∃ x, p.signature.valueParam? = some x ∧ LoadBodyLinked L x p.body q := by
  simp only [loadProcedure] at h
  have ⟨x, hx, h⟩ := exists_of_bind_eq_ok h
  have ⟨⟨checked, stmts⟩, hc, h⟩ := exists_of_bind_eq_ok h
  have ⟨⟨keys, stmts'⟩, hk, h⟩ := exists_of_bind_eq_ok h
  have ⟨⟨as, stmts''⟩, has, h⟩ := exists_of_bind_eq_ok h
  have ⟨⟨r, rest⟩, hr, h⟩ := exists_of_bind_eq_ok h
  have ⟨_, hrest, h⟩ := exists_of_bind_eq_ok h
  cases h
  have ⟨_, hc, hp⟩ := expectation_linked hc
  have ⟨checks, hc, hchecks⟩ := knownKeys_linked hc hk
  have ⟨assigns, has, hassigns⟩ := assignments_linked has
  have ⟨last, hr, hlast⟩ := loadResult_linked hr
  have hbody : p.body = checks ++ (assigns ++ [last]) := by
    dsimp only at hchecks hassigns hlast hrest
    rw [hp, hchecks, hassigns, hlast, eq_nil_of_nothing hrest]
  exact ⟨rfl, x, valueParam?_of_parameter hx, hbody ▸ .mk hc has hr⟩

theorem insertions_linked {is : List Insertion} (h : L.insertions x stmts = .ok (is, rest)) :
    ∃ inserts, InsertionsLinked L x inserts is ∧ stmts = inserts ++ .returnOutput :: rest := by
  induction stmts generalizing is with
  | nil => nomatch h
  | cons stmt stmts ih =>
    cases stmt with
    | insert key e omitNull =>
      simp only [insertions] at h
      have ⟨de, he, h⟩ := exists_of_bind_eq_ok h
      have ⟨⟨is', rest'⟩, his, h⟩ := exists_of_bind_eq_ok h
      cases h
      have ⟨inserts, his, heq⟩ := ih his
      exact ⟨_, .cons (dumpExpr_linked e he) his, by rw [heq]; rfl⟩
    | returnOutput => cases h; exact ⟨[], .nil, rfl⟩
    | _ => nomatch h

theorem pushes_linked {des : List DumpExpr} (h : L.pushes x stmts = .ok (des, rest)) :
    ∃ pushes, PushesLinked L x pushes des ∧ stmts = pushes ++ .returnOutput :: rest := by
  induction stmts generalizing des with
  | nil => nomatch h
  | cons stmt stmts ih =>
    cases stmt with
    | push e =>
      simp only [pushes] at h
      have ⟨de, he, h⟩ := exists_of_bind_eq_ok h
      have ⟨⟨des', rest'⟩, hdes, h⟩ := exists_of_bind_eq_ok h
      cases h
      have ⟨pushes, hdes, heq⟩ := ih hdes
      exact ⟨_, .cons (dumpExpr_linked e he) hdes, by rw [heq]; rfl⟩
    | returnOutput => cases h; exact ⟨[], .nil, rfl⟩
    | _ => nomatch h

theorem dumpBody_linked {b : DumpBody} (h : L.dumpBody x stmts = .ok (b, [])) :
    DumpBodyLinked L x stmts b := by
  unfold dumpBody at h
  split at h
  case h_1 =>
    have ⟨⟨is, rest⟩, his, h⟩ := exists_of_bind_eq_ok h
    cases h
    have ⟨inserts, his, heq⟩ := insertions_linked his
    exact heq ▸ .mapping his
  case h_2 =>
    have ⟨⟨des, rest⟩, hdes, h⟩ := exists_of_bind_eq_ok h
    cases h
    have ⟨pushes, hdes, heq⟩ := pushes_linked hdes
    exact heq ▸ .sequence hdes
  case h_3 e _ =>
    have ⟨_, he, h⟩ := exists_of_bind_eq_ok h
    cases h
    exact .value (dumpExpr_linked e he)
  case h_4 => nomatch h
  case h_5 => nomatch h

theorem dumpProcedure_linked {p : Procedure} {q : DumpProcedure} (h : L.dumpProcedure p = .ok q) :
    q.name = p.name ∧ ∃ x, p.signature.valueParam? = some x ∧ DumpBodyLinked L x p.body q.body := by
  simp only [dumpProcedure] at h
  have ⟨x, hx, h⟩ := exists_of_bind_eq_ok h
  have ⟨⟨b, rest⟩, hb, h⟩ := exists_of_bind_eq_ok h
  have ⟨_, hrest, h⟩ := exists_of_bind_eq_ok h
  cases h
  cases eq_nil_of_nothing hrest
  exact ⟨rfl, x, valueParam?_of_parameter hx, dumpBody_linked hb⟩

end Linker
end TreeCodec
