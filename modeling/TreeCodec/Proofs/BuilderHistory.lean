import Mathlib.Data.List.Nodup
import TreeCodec.Procedure.Builder

/-!
Builders in use.

Whatever was done with a builder, no two of its procedures have one name, and the index tells where
the sealed ones stand. What is sealed stays as it is, and what fails changes nothing.
-/
namespace TreeCodec.Builder

-- What can be done with a builder. A builder that is merged has a history of its own.
inductive Operation where
  | begin (name : String) (signature : Signature) (locals : Locals)
  | emit (stmt : Stmt)
  | bind (name : String) (binding : Binding)
  | finish
  | close
  | merge (record : String) (history : List Operation)

-- The builder that is left, also by a failure.
def leftBy {α : Type} (op : BuilderM α) (b : Builder) : Builder :=
  match op.run b with
  | .ok _ b' | .error _ b' => b'

mutual

def Operation.perform : Operation → BuilderM Unit
  | .begin name signature locals => Builder.begin name signature locals
  | .emit stmt                   => Builder.emit stmt
  | .bind name binding           => Builder.bind name binding
  | .finish                      => Builder.finish
  | .close                       => discard Builder.close
  | .merge record history        => Builder.merge (after (.new record) history)

-- A builder after some operations.
def after (b : Builder) : List Operation → Builder
  | []        => b
  | op :: ops => after (leftBy op.perform b) ops

end

def built (record : String) (history : List Operation) : Builder :=
  after (.new record) history

theorem after_append (b : Builder) (ops ops' : List Operation) :
    b.after (ops ++ ops') = (b.after ops).after ops' := by
  induction ops generalizing b with
  | nil => rfl
  | cons op ops ih => exact ih _

/-! ## Names -/

-- The names of all procedures, sealed or not.
def taken (b : Builder) : List String :=
  b.names ++ b.pending.map Procedure.name

structure Sound (b : Builder) : Prop where
  distinct : b.taken.Nodup
  index    : ∀ name i, b.place? name = some i ↔ b.names[i]? = some name

section Names

variable {b : Builder} {name : String} {p : Procedure} {ps : List Procedure}

theorem names_append (b : Builder) (p : Procedure) : (b.append p).names = b.names ++ [p.name] := by
  simp [names]

theorem length_names (b : Builder) : b.names.length = b.sealed.length :=
  List.length_map ..

theorem sound_new (record : String) : (new record).Sound where
  distinct := .nil
  index    := by simp [new, place?, names]

namespace Sound

theorem isSealed_iff (h : b.Sound) : b.isSealed name ↔ name ∈ b.names := by
  rw [isSealed, Option.isSome_iff_exists, List.mem_iff_getElem?]
  exact exists_congr (h.index name)

theorem isDefined_iff (h : b.Sound) : b.isDefined name ↔ name ∈ b.taken := by
  simp [isDefined, taken, h.isSealed_iff]

-- Looking a name up finds the procedure of that name.
theorem find?_eq_some_iff (h : b.Sound) : b.find? name = some p ↔ p ∈ b.sealed ∧ p.name = name := by
  rw [find?, Option.bind_eq_bind, Option.bind_eq_some_iff]
  simp only [h.index, names, List.getElem?_map, Option.map_eq_some_iff]
  constructor
  · rintro ⟨i, ⟨q, hq, hname⟩, hp⟩
    cases hq.symm.trans hp
    exact ⟨List.mem_of_getElem? hp, hname⟩
  · rintro ⟨hp, hname⟩
    have ⟨i, hi⟩ := List.getElem?_of_mem hp
    exact ⟨i, ⟨p, hi, hname⟩, hi⟩

-- A sealed procedure is put under a name that is free.
theorem index_append (h : b.Sound) (hp : p.name ∉ b.names) (name : String) (i : Nat) :
    (b.append p).place? name = some i ↔ (b.append p).names[i]? = some name := by
  rw [place?_append, names_append]
  by_cases hn : name = p.name
  case pos =>
    subst hn
    rw [if_pos rfl, Option.some_inj, ← length_names, List.getElem?_append]
    split
    case isTrue hi =>
      refine ⟨fun he => absurd hi (he ▸ Nat.lt_irrefl _), fun hs => ?_⟩
      exact absurd (List.mem_of_getElem? hs) hp
    case isFalse hi =>
      rw [List.getElem?_singleton]
      split <;> simp <;> omega
  case neg =>
    rw [if_neg hn, h.index, List.getElem?_append]
    split
    case isTrue => rfl
    case isFalse hi =>
      rw [List.getElem?_eq_none (Nat.not_lt.mp hi), List.getElem?_singleton]
      split <;> simp [Ne.symm hn]

-- The innermost procedure is sealed under its own name, which no sealed one has.
theorem sealInnermost (h : b.Sound) {rest : List Procedure} (hb : b.pending = p :: rest) :
    ({ b.append p with pending := rest } : Builder).Sound := by
  have hd := h.distinct
  simp only [taken, hb, List.map_cons] at hd
  constructor
  case distinct =>
    show ((b.append p).names ++ rest.map Procedure.name).Nodup
    rwa [names_append, List.append_assoc, List.singleton_append]
  case index =>
    refine h.index_append fun hp => ?_
    exact (List.nodup_append.mp hd).right.right _ hp _ (List.mem_cons_self ..) rfl

theorem appendAll (h : b.Sound) (hd : (b.taken ++ ps.map Procedure.name).Nodup) :
    (b.appendAll ps).Sound := by
  induction ps generalizing b with
  | nil => exact h
  | cons p ps ih =>
    rw [List.map_cons, List.append_cons] at hd
    have hfree : p.name ∉ b.taken := by
      have hd := (List.nodup_append.mp hd).left
      intro hp
      exact (List.nodup_append.mp hd).right.right _ hp _ (List.mem_singleton_self _) rfl
    have hperm : (b.taken ++ [p.name]).Perm (b.append p).taken := by
      show (b.names ++ b.pending.map Procedure.name ++ [p.name]).Perm
        ((b.append p).names ++ b.pending.map Procedure.name)
      rw [names_append, List.append_assoc, List.append_assoc]
      exact List.perm_append_comm.append_left _
    refine ih ⟨?_, h.index_append fun hp => hfree (List.mem_append_left _ hp)⟩ ?_
    · exact hperm.nodup_iff.mp (List.nodup_append.mp hd).left
    · exact (hperm.append_right _).nodup_iff.mp hd

end Sound
end Names

/-! ## Operations -/

namespace Operation

-- Why a builder refuses an operation, if it does.
def refusal? (b : Builder) : Operation → Option CodegenError
  | .begin name _ _       => if name ∈ b.taken then some (.duplicateProcedure name) else none
  | .emit stmt            => if b.pending = [] then some (.builderState (.emittedOutside stmt)) else none
  | .bind name _          => if b.pending = [] then some (.builderState (.boundOutside name)) else none
  | .finish               => if b.pending = [] then some (.builderState .nothingToSeal) else none
  | .close                => none
  | .merge record history =>
    match (built record history).pending with
    | p :: _ => some (.builderState (.mergeWhilePending p.name))
    | []     =>
      ((built record history).names.find? (· ∈ b.taken)).map .duplicateProcedure

-- What an operation makes of a builder that does not refuse it.
def effect (b : Builder) : Operation → Builder
  | .begin name signature locals => { b with pending := { name, signature, locals } :: b.pending }
  | .emit stmt                   =>
    { b with pending := b.pending.modifyHead fun p => { p with body := p.body ++ [stmt] } }
  | .bind name binding           =>
    { b with pending := b.pending.modifyHead fun p =>
        { p with locals := Keyed.put name binding p.locals } }
  | .finish | .close             =>
    match b.pending with
    | []        => b
    | p :: rest => { b.append p with pending := rest }
  | .merge record history        => b.appendAll (built record history).sealed

variable {b : Builder}

theorem finish_eq (h : b.Sound) :
    Builder.finish.run b =
      match b.pending with
      | []        => .error (.builderState .nothingToSeal) b
      | p :: rest => .ok () { b.append p with pending := rest } := by
  cases hb : b.pending with
  | nil => simp [Builder.finish, hb]
  | cons p rest =>
    -- Its name is none of those that are sealed.
    have hfree : b.isSealed p.name = false := by
      refine Bool.eq_false_iff.mpr fun hs => ?_
      have hd := h.distinct
      simp only [taken, hb, List.map_cons] at hd
      exact (List.nodup_append.mp hd).right.right _ (h.isSealed_iff.mp hs) _
        (List.mem_cons_self ..) rfl
    simp [Builder.finish, hb, hfree]

theorem merge_eq (h : b.Sound) (other : Builder) :
    (Builder.merge other).run b =
      match other.pending with
      | p :: _ => .error (.builderState (.mergeWhilePending p.name)) b
      | []     =>
        match other.names.find? (· ∈ b.taken) with
        | some name => .error (.duplicateProcedure name) b
        | none      => .ok () (b.appendAll other.sealed) := by
  have hf : other.names.find? (· ∈ b.taken) =
      (other.sealed.find? fun p => b.isDefined p.name).map Procedure.name := by
    rw [names, List.find?_map]
    refine congrArg (Option.map _) (congrArg (List.find? · _) (funext fun p => ?_))
    exact Bool.eq_iff_iff.mpr (by simp [h.isDefined_iff])
  rw [hf]
  cases hp : other.pending with
  | cons p ps => simp [Builder.merge, hp]
  | nil => cases hs : other.sealed.find? (fun p => b.isDefined p.name) <;> simp [Builder.merge, hp, hs]

-- The end of a scope seals. It does not fail, but a failure to seal is logged.
theorem run_close (b : Builder) :
    Builder.close.run b =
      match Builder.finish.run b with
      | .ok _ b'    => .ok [] b'
      | .error e b' => .ok [⟨.error, "ProcedureScope::drop -> " ++ e.message⟩] b' := by
  have hclose : Builder.close b =
      EStateM.tryCatch (EStateM.bind Builder.finish fun _ => pure [])
        (fun e => pure [⟨.error, "ProcedureScope::drop -> " ++ e.message⟩]) b := rfl
  unfold EStateM.run
  rw [hclose]
  unfold EStateM.tryCatch EStateM.bind
  cases Builder.finish b <;> rfl

theorem run_discard_close (b : Builder) :
    (discard Builder.close).run b = .ok () (leftBy Builder.finish b) := by
  have h := run_close b
  show EStateM.map (fun _ => ()) Builder.close b = _
  unfold EStateM.run at h
  unfold EStateM.map leftBy EStateM.run
  rw [h]
  cases Builder.finish b <;> rfl

-- An operation is refused, and then it changes nothing, or it has its effect.
theorem perform_eq (h : b.Sound) (op : Operation) :
    op.perform.run b =
      match op.refusal? b with
      | some e => .error e b
      | none   => .ok () (op.effect b) := by
  cases op with
  | begin name signature locals =>
    have hd : b.isDefined name = decide (name ∈ b.taken) := by
      rw [Bool.eq_iff_iff, h.isDefined_iff, decide_eq_true_iff]
    by_cases hn : name ∈ b.taken <;> simp [perform, Builder.begin, refusal?, effect, hd, hn]
  | emit stmt => cases hb : b.pending <;> simp [perform, Builder.emit, refusal?, effect, hb]
  | bind name binding =>
    cases hb : b.pending <;> simp [perform, Builder.bind, refusal?, effect, hb]
  | finish =>
    rw [perform, finish_eq h]
    cases hb : b.pending <;> simp [refusal?, effect, hb]
  | close =>
    rw [perform, run_discard_close, leftBy, finish_eq h]
    cases hb : b.pending <;> simp [refusal?, effect, hb]
  | merge record history =>
    rw [perform, ← built, merge_eq h]
    cases hp : (built record history).pending with
    | cons p ps => simp [refusal?, hp]
    | nil =>
      cases hf : (built record history).names.find? (· ∈ b.taken) <;>
        simp only [refusal?, effect, hp, hf, Option.map_some, Option.map_none]

theorem error_iff (h : b.Sound) {op : Operation} {e : CodegenError} {b' : Builder} :
    op.perform.run b = .error e b' ↔ op.refusal? b = some e ∧ b' = b := by
  rw [perform_eq h]
  cases op.refusal? b with
  | none => simp
  | some e' => simp [eq_comm]

theorem leftBy_perform (h : b.Sound) (op : Operation) :
    leftBy op.perform b = if (op.refusal? b).isSome then b else op.effect b := by
  rw [leftBy, perform_eq h]
  cases op.refusal? b <;> rfl

-- Nothing but new procedures behind the sealed ones.
theorem sealed_effect (b : Builder) (op : Operation) : b.sealed <+: (op.effect b).sealed := by
  cases op with
  | begin | emit | bind => exact List.prefix_rfl
  | finish | close =>
    simp only [effect]
    cases b.pending with
    | nil => exact List.prefix_rfl
    | cons p rest => exact List.prefix_append ..
  | merge => exact ⟨_, (sealed_appendAll b _).symm⟩

theorem taken_modifyHead {f : Procedure → Procedure} (hf : ∀ p, (f p).name = p.name) :
    ({ b with pending := b.pending.modifyHead f } : Builder).taken = b.taken := by
  unfold taken
  cases b.pending with
  | nil => rfl
  | cons p rest => exact congrArg (fun name => b.names ++ name :: rest.map Procedure.name) (hf p)

-- What is not refused keeps names apart. A builder that is merged has to be sound itself.
theorem sound_effect (h : b.Sound) {op : Operation}
    (hother : ∀ record history, op = .merge record history → (built record history).Sound)
    (hr : op.refusal? b = none) : (op.effect b).Sound := by
  cases op with
  | begin name signature locals =>
    have hfree : name ∉ b.taken := by simpa [refusal?] using hr
    refine ⟨?_, h.index⟩
    exact List.perm_middle.nodup_iff.mpr <| List.nodup_cons.mpr ⟨hfree, h.distinct⟩
  | emit | bind =>
    refine ⟨(congrArg List.Nodup ?_).mpr h.distinct, h.index⟩
    exact taken_modifyHead fun _ => rfl
  | finish | close =>
    simp only [effect]
    cases hb : b.pending with
    | nil => exact h
    | cons p rest => exact h.sealInnermost hb
  | merge record history =>
    have ho := hother record history rfl
    simp only [refusal?] at hr
    cases hp : (built record history).pending with
    | cons p ps => simp [hp] at hr
    | nil =>
      have hapart : ∀ name ∈ (built record history).names, name ∉ b.taken := by
        simpa [hp] using hr
      have hn : (built record history).names.Nodup := (List.nodup_append.mp ho.distinct).left
      refine h.appendAll (List.nodup_append.mpr ⟨h.distinct, hn, fun name hm name' hm' he => ?_⟩)
      exact hapart name' hm' (he ▸ hm)

mutual

theorem sound_leftBy : ∀ (op : Operation) {b : Builder}, b.Sound → (leftBy op.perform b).Sound
  | .merge record history, b, h => by
    have ho : (built record history).Sound := sound_after history (sound_new record)
    rw [leftBy_perform h]
    split
    · exact h
    · refine sound_effect h (fun _ _ he => ?_) (by simp_all)
      cases he
      exact ho
  | .begin .., b, h | .emit _, b, h | .bind .., b, h | .finish, b, h | .close, b, h => by
    rw [leftBy_perform h]
    split
    · exact h
    · exact sound_effect h nofun (by simp_all)

theorem sound_after : ∀ (ops : List Operation) {b : Builder}, b.Sound → (b.after ops).Sound
  | [], _, h => h
  | op :: ops, _, h => sound_after ops (sound_leftBy op h)

end

theorem sealed_after (ops : List Operation) (h : b.Sound) : b.sealed <+: (b.after ops).sealed := by
  induction ops generalizing b with
  | nil => exact List.prefix_rfl
  | cons op ops ih =>
    refine List.IsPrefix.trans ?_ (ih (sound_leftBy op h))
    rw [leftBy_perform h]
    split
    · exact List.prefix_rfl
    · exact sealed_effect b op

end Operation

-- A builder with a history.
structure Lawful (record : String) (history : List Operation) : Prop where
  distinct : (built record history).taken.Nodup
  index    : ∀ name i, (built record history).place? name = some i ↔
    (built record history).names[i]? = some name
  found    : ∀ name p, (built record history).find? name = some p ↔
    p ∈ (built record history).sealed ∧ p.name = name
  -- What is sealed is neither changed nor moved later.
  kept     : ∀ later, (built record history).sealed <+: (built record (history ++ later)).sealed
  -- What fails, and why, is told by the state. It leaves the builder as it was.
  refuses  : ∀ (op : Operation) e b', op.perform.run (built record history) = .error e b' ↔
    op.refusal? (built record history) = some e ∧ b' = built record history
  dropped  : ∃ log, Builder.close.run (built record history) =
    .ok log (leftBy Builder.finish (built record history))
  sealing  : (built record history).pending ≠ [] →
    ∃ b', Builder.finish.run (built record history) = .ok () b'

theorem builder_lawful (record : String) (history : List Operation) : Lawful record history := by
  have h : (built record history).Sound := Operation.sound_after history (sound_new record)
  constructor
  case distinct => exact h.distinct
  case index => exact h.index
  case found => exact fun _ _ => h.find?_eq_some_iff
  case kept =>
    intro later
    rw [built, built, after_append]
    exact Operation.sealed_after later h
  case refuses => exact fun _ _ _ => Operation.error_iff h
  case dropped =>
    rw [Operation.run_close, leftBy]
    cases Builder.finish.run (built record history) <;> exact ⟨_, rfl⟩
  case sealing =>
    intro hp
    rw [Operation.finish_eq h]
    cases hb : (built record history).pending with
    | nil => exact absurd hb hp
    | cons p rest => exact ⟨_, rfl⟩

end TreeCodec.Builder
