import TreeCodec.Proofs.BuilderHistory
import TreeCodec.Proofs.LinkMeaning
import TreeCodec.Proofs.Shape

/-!
The linker accepts exactly the well-formed procedures.

What was linked tells what it was linked from, part by part: nothing but a well-formed part has a
linked part. A builder that does not link is refused for the first of its procedures that is not
well-formed.
-/
namespace TreeCodec

open WellFormed

theorem Linker.mem_of_idxOf? {scope : Scope} {x : String} {up : Nat}
    (h : scope.idxOf? x = some up) : x ∈ scope :=
  List.isSome_idxOf?.mp (Option.isSome_of_eq_some h)

namespace Linker

variable {L : Linker} {procedures : List Procedure} {scope : Scope} {name x : String} {t : Ty}

-- A name that has a place is the name of a procedure of the direction of the place.
def PlacesOnly (L : Linker) (procedures : List Procedure) : Prop :=
  ∀ d name i, Keyed.get? name L.slots = some (d.slot i) → Defined procedures d name

/-! ## Local names -/

theorem get?_of_typeOf? {locals : Locals} (h : Meaning.typeOf? locals name = some t) :
    Keyed.get? name locals = some (.type t) := by
  unfold Meaning.typeOf? at h
  split at h
  case h_1 hb => exact Option.some.inj h ▸ hb
  case h_2 => nomatch h

theorem bound_of_viewOf? {α : Type} {view : Ty → Except KindMismatch α} {a : α} {s : Shape}
    (h : Meaning.viewOf? L.locals name view = some (t, a))
    (hs : ∀ u, view u = .ok a → L.schema.shape u = s) : Bound L.schema L.locals name t s := by
  have ⟨u, hu, h⟩ := Option.bind_eq_some_iff.mp h
  split at h
  case h_1 hv => cases h; exact ⟨get?_of_typeOf? hu, hs _ hv⟩
  case h_2 => nomatch h

end Linker

section Parts

variable {L : Linker} {procedures : List Procedure} {scope : Scope} {arg : Operand}

theorem LoadSource.Resolves.readsTree {s : LoadSource} (h : s.Resolves scope arg) :
    ReadsTree scope arg := by
  cases h with
  | var hx  => exact .var (Linker.mem_of_idxOf? hx)
  | key hx  => exact .key (Linker.mem_of_idxOf? hx)
  | item hx => exact .item (Linker.mem_of_idxOf? hx)

theorem DumpSource.Resolves.readsValue {s : DumpSource} (h : s.Resolves L scope arg) :
    ReadsValue L.schema L.locals scope arg := by
  cases h with
  | var hx => exact .var (Linker.mem_of_idxOf? hx)
  | attr hx ht hf hi =>
    have hb := Linker.get?_of_typeOf? ht
    exact .attr (Linker.mem_of_idxOf? hx) ⟨hb, Schema.shape_of_fields hf⟩ hi
  | element hx ht he hi =>
    have hb := Linker.get?_of_typeOf? ht
    exact .element (Linker.mem_of_idxOf? hx) ⟨hb, Schema.shape_of_elements he⟩ hi

/-! ## Expressions -/

mutual

theorem LoadLinked.wellFormed (hp : L.PlacesOnly procedures) :
    ∀ {scope : Scope} {e : Expr} {le : LoadExpr}, LoadLinked L scope e le →
      WellFormedExpr L.schema procedures L.locals .load scope e
  | _, _, _, .scalar hs hb hk => .leaf hs.readsTree (.scalar ⟨hb, hk⟩)
  | _, _, _, .tree hs hb hk => .leaf hs.readsTree (.dynamic ⟨hb, hk⟩)
  | _, _, _, .hook hs hb => .leaf hs.readsTree (.loadHook rfl hb)
  | _, _, _, .call hs hi => .call hs.readsTree (hp .load _ _ hi)
  | _, _, _, .optional hs ht he =>
    .optional hs.readsTree (Linker.bound_of_viewOf? ht fun _ => Schema.shape_of_option)
      (he.wellFormed hp)
  | _, _, _, .boxed hs ht he =>
    .boxed hs.readsTree (Linker.bound_of_viewOf? ht fun _ => Schema.shape_of_box)
      (he.wellFormed hp)
  | _, _, _, .list hs ht he =>
    .list hs.readsTree (Linker.bound_of_viewOf? ht fun _ => Schema.shape_of_item)
      (he.wellFormed hp)
  | _, _, _, .map hs ht hk he =>
    .map hs.readsTree (Linker.bound_of_viewOf? ht fun _ => Schema.shape_of_entry)
      (hk.wellFormed hp) (he.wellFormed hp)
  | _, _, _, .union hs ht hn hes =>
    .union hs.readsTree (Linker.bound_of_viewOf? ht fun _ => Schema.shape_of_variants) hn.symm
      (hes.wellFormed hp)

theorem LoadAllLinked.wellFormed (hp : L.PlacesOnly procedures) :
    ∀ {scope : Scope} {es : List Expr} {les : List LoadExpr}, LoadAllLinked L scope es les →
      ∀ e ∈ es, WellFormedExpr L.schema procedures L.locals .load scope e
  | _, _, _, .nil => nofun
  | _, _, _, .cons he hes => List.forall_mem_cons.mpr ⟨he.wellFormed hp, hes.wellFormed hp⟩

end

mutual

theorem DumpLinked.wellFormed (hp : L.PlacesOnly procedures) :
    ∀ {scope : Scope} {e : Expr} {de : DumpExpr}, DumpLinked L scope e de →
      WellFormedExpr L.schema procedures L.locals .dump scope e
  | _, _, _, .scalar hs hb hk => .leaf hs.readsValue (.scalar ⟨hb, hk⟩)
  | _, _, _, .tree hs hb hk => .leaf hs.readsValue (.dynamic ⟨hb, hk⟩)
  | _, _, _, .hook hs hb => .leaf hs.readsValue (.dumpHook rfl hb)
  | _, _, _, .call hs hi => .call hs.readsValue (hp .dump _ _ hi)
  | _, _, _, .optional hs ht he =>
    .optional hs.readsValue (Linker.bound_of_viewOf? ht fun _ => Schema.shape_of_option)
      (he.wellFormed hp)
  | _, _, _, .boxed hs ht he =>
    .boxed hs.readsValue (Linker.bound_of_viewOf? ht fun _ => Schema.shape_of_box)
      (he.wellFormed hp)
  | _, _, _, .list hs ht he =>
    .list hs.readsValue (Linker.bound_of_viewOf? ht fun _ => Schema.shape_of_item)
      (he.wellFormed hp)
  | _, _, _, .map hs ht hk he =>
    .map hs.readsValue (Linker.bound_of_viewOf? ht fun _ => Schema.shape_of_entry)
      (hk.wellFormed hp) (he.wellFormed hp)
  | _, _, _, .union hs ht hn hes =>
    .union hs.readsValue (Linker.bound_of_viewOf? ht fun _ => Schema.shape_of_variants) hn.symm
      (hes.wellFormed hp)

theorem DumpAllLinked.wellFormed (hp : L.PlacesOnly procedures) :
    ∀ {scope : Scope} {es : List Expr} {des : List DumpExpr}, DumpAllLinked L scope es des →
      ∀ e ∈ es, WellFormedExpr L.schema procedures L.locals .dump scope e
  | _, _, _, .nil => nofun
  | _, _, _, .cons he hes => List.forall_mem_cons.mpr ⟨he.wellFormed hp, hes.wellFormed hp⟩

end

end Parts

/-! ## Bodies -/

section Bodies

variable {L : Linker} {procedures : List Procedure} {x : String} {stmts : List Stmt}

theorem ChecksLinked.checks {checked : Option Expectation} {keys : Option (List String)}
    (h : ChecksLinked x stmts checked keys) : Checks x stmts := by
  cases h with
  | none          => exact .none
  | mapping       => exact .mapping
  | knownKeys     => exact .knownKeys
  | sequence hlen => exact .sequence hlen

theorem DefaultLinked.bound {default : Option String} {v : Option Value}
    (h : DefaultLinked L default v) :
    ∀ name ∈ default, ∃ w, Keyed.get? name L.locals = .some (.default w) := by
  cases h with
  | none    => nofun
  | some hb => rintro _ ⟨⟩; exact ⟨_, hb⟩

-- The slots are filled one after the other, so the last one tells how many there are.
theorem AssignmentsLinked.assigns (hp : L.PlacesOnly procedures) {slot : Nat} {as : List Assignment}
    (h : AssignmentsLinked L x slot stmts as) :
    WellFormed.Assigns L.schema procedures L.locals x slot (slot + as.length) stmts := by
  induction h with
  | nil => exact .nil
  | cons hs he hd _ ih =>
    rw [Nat.succ_add_eq_add_succ] at ih
    exact .cons hs.readsTree (he.wellFormed hp) hd.bound ih

theorem LoadResultLinked.results (hp : L.PlacesOnly procedures) {n : Nat} {last : Stmt}
    {r : LoadResult} (h : LoadResultLinked L x n last r) :
    Results L.schema procedures L.locals x n last := by
  cases h with
  | record ht hk => exact .record ⟨Linker.get?_of_typeOf? ht, hk⟩ rfl
  | tuple ht hk  => exact .tuple ⟨Linker.get?_of_typeOf? ht, hk⟩ rfl
  | value he     => exact .value rfl (he.wellFormed hp)

theorem LoadBodyLinked.loadBody (hp : L.PlacesOnly procedures) {q : LoadProcedure}
    (h : LoadBodyLinked L x stmts q) : LoadBody L.schema procedures L.locals x stmts := by
  cases h with
  | mk hchecks hassigns hlast =>
    have hassigns := hassigns.assigns hp
    rw [Nat.zero_add] at hassigns
    exact ⟨_, _, _, _, (List.append_assoc ..).symm, hchecks.checks, hassigns, hlast.results hp⟩

theorem InsertionsLinked.inserts (hp : L.PlacesOnly procedures) {is : List Insertion}
    (h : InsertionsLinked L x stmts is) : Inserts L.schema procedures L.locals x stmts := by
  induction h with
  | nil          => exact .nil
  | cons he _ ih => exact .cons (he.wellFormed hp) ih

theorem PushesLinked.pushes (hp : L.PlacesOnly procedures) {des : List DumpExpr}
    (h : PushesLinked L x stmts des) : Pushes L.schema procedures L.locals x stmts := by
  induction h with
  | nil          => exact .nil
  | cons he _ ih => exact .cons (he.wellFormed hp) ih

theorem DumpBodyLinked.dumpBody (hp : L.PlacesOnly procedures) {b : DumpBody}
    (h : DumpBodyLinked L x stmts b) :
    WellFormed.DumpBody L.schema procedures L.locals x stmts := by
  cases h with
  | mapping h  => exact .mapping (h.inserts hp)
  | sequence h => exact .sequence (h.pushes hp)
  | value he   => exact .value (he.wellFormed hp)

end Bodies

/-! ## Builders -/

-- Each place that a table of procedures gives out is that of a procedure.
theorem SlotTable.placesOnly (S : Schema) (procedures : List Procedure) (locals : Locals) :
    Linker.PlacesOnly ⟨S, ofProcedures 0 0 procedures, locals⟩ procedures := by
  intro d name i hi
  have ⟨p, _, _, _, hp⟩ := exists_procedure hi
  have ⟨hname, hd⟩ : p.name = name ∧ p.signature.direction = d := by
    simpa using List.find?_some hp
  exact ⟨p, List.mem_of_find?_eq_some hp, hname, hd⟩

namespace Linker

variable {ε ε' α β γ : Type}

-- Where one thing is linked before the rest, the error is its own or that of the rest.
theorem of_link_eq_error {x : Except ε α} {told : ε → ε'} {rest : Except ε' β}
    {k : α → β → Except ε' γ} {e : ε'} (hk : ∀ a r e, k a r ≠ .error e)
    (h : (x.mapError told >>= fun a => rest >>= k a) = .error e) :
    (∃ fault, x = .error fault ∧ e = told fault) ∨ (∃ a, x = .ok a) ∧ rest = .error e := by
  cases x with
  | error fault =>
    cases h
    exact .inl ⟨fault, rfl, rfl⟩
  | ok a =>
    rcases bind_eq_error_iff.mp (show (rest >>= k a) = _ from h) with h | ⟨r, _, h⟩
    case inl => exact .inr ⟨⟨a, rfl⟩, h⟩
    case inr => exact absurd h (hk a r e)

end Linker

namespace Builder

-- The first of some procedures that is not well-formed.
def FirstMalformed (S : Schema) (procedures ps : List Procedure) (p : Procedure) : Prop :=
  ∃ before after, ps = before ++ p :: after ∧
    (∀ q ∈ before, WellFormedProcedure S procedures q) ∧ ¬WellFormedProcedure S procedures p

theorem FirstMalformed.cons {S : Schema} {procedures ps : List Procedure} {p q : Procedure}
    (hq : WellFormedProcedure S procedures q) (h : FirstMalformed S procedures ps p) :
    FirstMalformed S procedures (q :: ps) p := by
  have ⟨before, after, hps, hbefore, hp⟩ := h
  exact ⟨q :: before, after, by rw [hps]; rfl, List.forall_mem_cons.mpr ⟨hq, hbefore⟩, hp⟩

section Linking

variable {b : Builder} {S : Schema} {procedures ps : List Procedure} {slots : SlotTable}
  {p : Procedure} {e : CodegenError}
  (hp : ∀ locals d, Linker.Places ⟨S, slots, locals⟩ procedures d)
  (ho : ∀ locals, Linker.PlacesOnly ⟨S, slots, locals⟩ procedures)
include hp ho

theorem exists_loadProcedure_iff (hd : p.signature.direction = .load) :
    (∃ q, Linker.loadProcedure ⟨S, slots, p.locals⟩ p = .ok q) ↔
      WellFormedProcedure S procedures p := by
  unfold WellFormedProcedure
  rw [hd]
  constructor
  case mp =>
    rintro ⟨q, hq⟩
    have ⟨_, x, hx, hbody⟩ := Linker.loadProcedure_linked hq
    exact ⟨x, hx, hbody.loadBody (ho _)⟩
  case mpr => exact fun ⟨x, hx, hbody⟩ => Linker.exists_loadProcedure (hp p.locals .load) hx hbody

theorem exists_dumpProcedure_iff (hd : p.signature.direction = .dump) :
    (∃ q, Linker.dumpProcedure ⟨S, slots, p.locals⟩ p = .ok q) ↔
      WellFormedProcedure S procedures p := by
  unfold WellFormedProcedure
  rw [hd]
  constructor
  case mp =>
    rintro ⟨q, hq⟩
    have ⟨_, x, hx, hbody⟩ := Linker.dumpProcedure_linked hq
    exact ⟨x, hx, hbody.dumpBody (ho _)⟩
  case mpr => exact fun ⟨x, hx, hbody⟩ => Linker.exists_dumpProcedure (hp p.locals .dump) hx hbody

-- It is the first procedure that does not link, or the rest of them does not.
theorem linkAll_cons_error (h : b.linkAll S slots (p :: ps) = .error e) :
    (WellFormedProcedure S procedures p ∧ b.linkAll S slots ps = .error e) ∨
      ¬WellFormedProcedure S procedures p ∧
        ∃ fault, e = .compilation p.name b.record fault b.listing := by
  cases hd : p.signature.direction with
  | load =>
    rw [← exists_loadProcedure_iff hp ho hd]
    simp only [linkAll, hd] at h
    rcases Linker.of_link_eq_error (by rintro _ ⟨_, _⟩ _ ⟨⟩) h with ⟨fault, hq, he⟩ | h
    case inl => exact .inr ⟨by simp [hq], fault, he⟩
    case inr => exact .inl h
  | dump =>
    rw [← exists_dumpProcedure_iff hp ho hd]
    simp only [linkAll, hd] at h
    rcases Linker.of_link_eq_error (by rintro _ ⟨_, _⟩ _ ⟨⟩) h with ⟨fault, hq, he⟩ | h
    case inl => exact .inr ⟨by simp [hq], fault, he⟩
    case inr => exact .inl h

theorem linkAll_error (h : b.linkAll S slots ps = .error e) :
    ∃ p fault, FirstMalformed S procedures ps p ∧
      e = .compilation p.name b.record fault b.listing := by
  induction ps with
  | nil => nomatch h
  | cons p ps ih =>
    rcases linkAll_cons_error hp ho h with ⟨hwf, h⟩ | ⟨hwf, fault, he⟩
    case inl =>
      have ⟨p', fault, hfirst, he⟩ := ih h
      exact ⟨p', fault, hfirst.cons hwf, he⟩
    case inr => exact ⟨p, fault, ⟨[], ps, rfl, nofun, hwf⟩, he⟩

end Linking

-- A builder links if and only if all its procedures are well-formed. The error names the first one
-- that is not.
structure LinksExactly (b : Builder) (S : Schema) : Prop where
  accepts : (∃ U, b.link S = .ok U) ↔ ∀ p ∈ b.sealed, WellFormedProcedure S b.sealed p
  refuses : (¬∀ p ∈ b.sealed, WellFormedProcedure S b.sealed p) →
    ∃ p fault, FirstMalformed S b.sealed b.sealed p ∧
      b.link S = .error (.compilation p.name b.record fault b.listing)

section Names

variable {b : Builder} {S : Schema} (hn : b.names.Nodup)
include hn

theorem wellFormed_of_link {U : CompiledUnit} (h : b.link S = .ok U) :
    ∀ p ∈ b.sealed, WellFormedProcedure S b.sealed p := by
  have hplaces := SlotTable.places S hn
  have honly := SlotTable.placesOnly S b.sealed
  have hl := linked_of_link h
  intro p hp
  cases hd : p.signature.direction with
  | load =>
    refine (exists_loadProcedure_iff hplaces honly hd).mp ?_
    have ⟨q, _, hq⟩ := exists_of_forall₂ hl.loads p (List.mem_filter.mpr ⟨hp, by simp [hd]⟩)
    exact ⟨q, hl.slots ▸ hq⟩
  | dump =>
    refine (exists_dumpProcedure_iff hplaces honly hd).mp ?_
    have ⟨q, _, hq⟩ := exists_of_forall₂ hl.dumps p (List.mem_filter.mpr ⟨hp, by simp [hd]⟩)
    exact ⟨q, hl.slots ▸ hq⟩

theorem firstMalformed_of_link {e : CodegenError} (hb : b.pending = []) (h : b.link S = .error e) :
    ∃ p fault, FirstMalformed S b.sealed b.sealed p ∧
      e = .compilation p.name b.record fault b.listing := by
  simp only [link, hb] at h
  rcases bind_eq_error_iff.mp h with h | ⟨_, _, h⟩
  case inl => exact linkAll_error (SlotTable.places S hn) (SlotTable.placesOnly S b.sealed) h
  case inr => cases h

end Names

-- What matters of the history is that it keeps names apart.
theorem link_exact (record : String) (history : List Operation) (S : Schema)
    (hb : (built record history).pending = []) : (built record history).LinksExactly S := by
  have hn : (built record history).names.Nodup :=
    (List.nodup_append.mp (Operation.sound_after history (sound_new record)).distinct).left
  constructor
  case accepts =>
    refine ⟨fun ⟨_, hU⟩ => wellFormed_of_link hn hU, fun h => ?_⟩
    have ⟨U, hU, _⟩ := exists_link hb hn h
    exact ⟨U, hU⟩
  case refuses =>
    intro h
    cases hl : (built record history).link S with
    | ok U => exact absurd (wellFormed_of_link hn hl) h
    | error e =>
      have ⟨p, fault, hp, he⟩ := firstMalformed_of_link hn hb hl
      exact ⟨p, fault, hp, by rw [he]⟩

-- The second of these procedures checks its input and returns nothing.
def unreturned : List Operation := [
  .begin "load_bool" .load [("b", .type (.scalar .bool))],
  .emit (.returnValue (.leaf "b" (.var "v1"))),
  .finish,
  .begin "load_A" .load [],
  .emit (.beginMapping (.var "v1")),
  .finish]

theorem link_exact_unreturned :
    (built "A" unreturned).pending = [] ∧ (built "A" unreturned).LinksExactly ⟨[]⟩ :=
  have hb : (built "A" unreturned).pending = [] := by decide +kernel
  ⟨hb, link_exact "A" unreturned ⟨[]⟩ hb⟩

example : ((built "A" unreturned).link ⟨[]⟩).map (fun U => U.names) =
    .error (.compilation "load_A" "A" .neverReturns (built "A" unreturned).listing) := by
  decide +kernel

end Builder
end TreeCodec
