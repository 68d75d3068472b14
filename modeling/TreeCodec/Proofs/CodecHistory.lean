import Mathlib.Data.List.Induction
import TreeCodec.Codec
import TreeCodec.Proofs.OwnHooks

/-!
Codecs in use.

Whatever a codec was asked before, it answers as new compilations under its options and the hooks
that are registered by then. Yet it compiles a type at most once for each direction, as long as no
hook of that direction is registered.
-/
namespace TreeCodec

/-! ## Cells -/

namespace Cell

variable {α : Type} {c : Cell α} {make : Ty → α} {t u : Ty}

-- Everything that is kept is what would be made now.
def Fresh (c : Cell α) (make : Ty → α) : Prop :=
  ∀ t k, c.kept? t = some k → k.value = make t

theorem fresh_clear (c : Cell α) : c.clear.Fresh make := by
  intro t k h
  rw [kept?_clear] at h
  nomatch h

theorem Fresh.value_get (h : c.Fresh make) : (c.get t fun _ => make t).1.value = make t := by
  rw [get_eq]
  cases hk : c.kept? t with
  | some k => exact h t k hk
  | none => rfl

theorem Fresh.get (h : c.Fresh make) : (c.get t fun _ => make t).2.Fresh make := by
  rw [get_eq]
  cases hk : c.kept? t with
  | some k => exact h
  | none =>
    intro u k hu
    rw [kept?_fill] at hu
    split at hu
    case isTrue hut =>
      cases hu
      rw [hut]
      rfl
    case isFalse => exact h u k hu

theorem runs_get (c : Cell α) (t : Ty) (make : Unit → α) :
    (c.get t make).2.runs = if c.holds t then c.runs else c.runs + 1 := by
  rw [get_eq, holds]
  cases c.kept? t <;> simp

theorem holds_get (c : Cell α) (t u : Ty) (make : Unit → α) :
    (c.get t make).2.holds u = (c.holds u || u = t) := by
  rw [get_eq]
  unfold holds
  cases ht : c.kept? t with
  | some k => by_cases hu : u = t <;> simp_all
  | none => by_cases hu : u = t <;> simp [kept?_fill, hu]

end Cell

/-! ## Answers -/

-- What was compiled, or why it was not.
def Compiled.delivered {α : Type} (x : Compiled α) : Except CodecError α :=
  x.result.mapError .codegen

def Run.converted {α : Type} (r : Run α) : Except CodecError α :=
  match r.outcome with
  | .done a => .ok a
  | .failed e => .error (.conversion e)
  | .unfinished => .error .unfinished

namespace CodecM

variable {α β : Type} {S : Schema} {s : Session} {c : Codec}

-- A codec answers, and it is left as another one.
def Answers (m : CodecM α) (S : Schema) (s : Session) (answer : Except CodecError α) (c : Codec) :
    Prop :=
  match m S s with
  | .ok a s' => answer = .ok a ∧ s'.codec = c
  | .error e s' => answer = .error e ∧ s'.codec = c

namespace Answers

theorem pure (a : α) : Answers (Pure.pure a) S s (.ok a) s.codec :=
  ⟨rfl, rfl⟩

theorem bind {x : CodecM α} {f : α → CodecM β} {a : Except CodecError α}
    {b : α → Except CodecError β} (hx : x.Answers S s a c)
    (hf : ∀ a s', s'.codec = c → (f a).Answers S s' (b a) c) :
    Answers (x >>= f) S s (a >>= b) c := by
  show match EStateM.bind (x S) (fun a => f a S) s with
    | .ok b' s' => (a >>= b) = .ok b' ∧ s'.codec = c
    | .error e s' => (a >>= b) = .error e ∧ s'.codec = c
  unfold Answers at hx
  unfold EStateM.bind
  cases hr : x S s with
  | ok a' s' =>
    rw [hr] at hx
    obtain ⟨rfl, hc⟩ := hx
    exact hf a' s' hc
  | error e s' =>
    rw [hr] at hx
    obtain ⟨rfl, hc⟩ := hx
    exact ⟨rfl, hc⟩

theorem map {x : CodecM α} {a : Except CodecError α} (g : α → β) (hx : x.Answers S s a c) :
    Answers (do return g (← x)) S s (g <$> a) c := by
  have h := hx.bind (b := fun a => .ok (g a)) fun a s' hc => hc ▸ pure (g a)
  cases a <;> exact h

theorem deliver (wasKept : Bool) (x : Compiled α) :
    Answers (deliver wasKept x) S s x.delivered s.codec := by
  obtain ⟨result, log⟩ := x
  cases result <;> exact ⟨rfl, rfl⟩

theorem convert (r : Run α) : Answers (convert r) S s r.converted s.codec := by
  obtain ⟨outcome, log⟩ := r
  cases outcome <;> exact ⟨rfl, rfl⟩

theorem loader (t : Ty) : Answers (CodecM.loader t) S s
    ((fun l => ((s.codec.requestLoader S t).1, l)) <$>
      (s.codec.requestLoader S t).1.value.delivered)
    (s.codec.requestLoader S t).2 := by
  let k := (s.codec.requestLoader S t).1
  let kept : Session := { s with codec := (s.codec.requestLoader S t).2 }
  have h : Answers _ S kept _ kept.codec := deliver (s.codec.loaders.holds t) k.value
  exact h.map fun l => (k, l)

theorem dumper (t : Ty) : Answers (CodecM.dumper t) S s
    ((fun d => ((s.codec.requestDumper S t).1, d)) <$>
      (s.codec.requestDumper S t).1.value.delivered)
    (s.codec.requestDumper S t).2 := by
  let k := (s.codec.requestDumper S t).1
  let kept : Session := { s with codec := (s.codec.requestDumper S t).2 }
  have h : Answers _ S kept _ kept.codec := deliver (s.codec.dumpers.holds t) k.value
  exact h.map fun d => (k, d)

-- What was delivered converts, and the codec stays as it is.
theorem use {x : CodecM (Kept (Compiled α) × α)} {k : Kept (Compiled α)} {y : Except CodecError α}
    (hx : x.Answers S s ((fun a => (k, a)) <$> y) c) (f : α → Schema → Run β) :
    Answers (do
      let (_, a) ← x
      CodecM.convert (f a (← read))) S s (y >>= fun a => (f a S).converted) c := by
  have hconvert (p : Kept (Compiled α) × α) (s' : Session) (hc : s'.codec = c) :
      Answers (CodecM.convert (f p.2 S)) S s' (f p.2 S).converted c :=
    hc ▸ convert _
  have h := hx.bind hconvert
  cases y <;> exact h

theorem load (t : Ty) (input : Tree) : Answers (CodecM.load t input) S s
    ((s.codec.requestLoader S t).1.value.delivered >>= fun l => (l.loadAs S t input).converted)
    (s.codec.requestLoader S t).2 :=
  (loader t).use fun l S => l.loadAs S t input

theorem dump (v : Value) : Answers (CodecM.dump v) S s
    ((s.codec.requestDumper S v.ty).1.value.delivered >>= fun d => (d.dump S v).converted)
    (s.codec.requestDumper S v.ty).2 :=
  (dumper v.ty).use fun d S => d.dump S v

end Answers
end CodecM

/-! ## Requests -/

-- What can be asked of a codec.
inductive Request where
  | addLoadHook (t : Ty) (hook : LoadHook)
  | addDumpHook (t : Ty) (hook : DumpHook)
  | loader (t : Ty)
  | dumper (t : Ty)
  | load (t : Ty) (input : Tree)
  | loadList (t : Ty) (input : Tree)
  | dump (v : Value)

inductive Reply where
  | registered
  | loader (l : Loader)
  | dumper (d : Dumper)
  | value (v : Value)
  | tree (t : Tree)

namespace Request

variable (S : Schema)

def run : Request → CodecM Reply
  | addLoadHook t hook => do
    modify fun s => { s with codec := s.codec.addLoadHook t hook }
    return .registered
  | addDumpHook t hook => do
    let S ← read
    modify fun s => { s with codec := s.codec.addDumpHook S t hook }
    return .registered
  | loader t => do return .loader (← CodecM.loader t).2
  | dumper t => do return .dumper (← CodecM.dumper t).2
  | load t input => do return .value (← CodecM.load t input)
  | loadList t input => do return .value (← CodecM.loadList t input)
  | dump v => do return .tree (← CodecM.dump v)

-- What is answered by means of some converters.
def answered (loaderOf : Ty → Compiled Loader) (dumperOf : Ty → Compiled Dumper) :
    Request → Except CodecError Reply
  | addLoadHook .. | addDumpHook .. => .ok .registered
  | loader t => .loader <$> (loaderOf t).delivered
  | dumper t => .dumper <$> (dumperOf t).delivered
  | load t input =>
    .value <$> ((loaderOf t).delivered >>= fun l => (l.loadAs S t input).converted)
  | loadList t input =>
    .value <$> ((loaderOf (.list .vector t)).delivered >>= fun l =>
      (l.loadAs S (.list .vector t) input).converted)
  | dump v => .tree <$> ((dumperOf v.ty).delivered >>= fun d => (d.dump S v).converted)

-- What is answered where everything is compiled anew.
def compiled (options : Options) (hooks : Hooks) : Request → Except CodecError Reply :=
  answered S (compileLoader S options hooks) (compileDumper S options hooks)

-- The hooks after a request.
def register (hooks : Hooks) : Request → Hooks
  | addLoadHook t hook => hooks.registerLoad t hook
  | addDumpHook t hook => hooks.registerDump S t hook
  | _ => hooks

-- The hooks that are registered by some requests.
def registered (rs : List Request) : Hooks :=
  rs.foldl (fun hooks r => r.register S hooks) {}

theorem registered_append (rs : List Request) (r : Request) :
    registered S (rs ++ [r]) = r.register S (registered S rs) :=
  List.foldl_concat ..

-- The direction that a hook is registered for.
def registers? : Request → Option Direction
  | addLoadHook .. => some .load
  | addDumpHook .. => some .dump
  | _ => none

-- The converter that is needed for an answer.
def needs? : Request → Option (Direction × Ty)
  | loader t | load t _ => some (.load, t)
  | loadList t _ => some (.load, .list .vector t)
  | dumper t => some (.dump, t)
  | dump v => some (.dump, v.ty)
  | addLoadHook .. | addDumpHook .. => none

-- The codec after a request.
def effect (c : Codec) : Request → Codec
  | addLoadHook t hook => c.addLoadHook t hook
  | addDumpHook t hook => c.addDumpHook S t hook
  | loader t | load t _ => (c.requestLoader S t).2
  | loadList t _ => (c.requestLoader S (.list .vector t)).2
  | dumper t => (c.requestDumper S t).2
  | dump v => (c.requestDumper S v.ty).2

variable {S}

theorem run_answers (r : Request) (s : Session) :
    r.run.Answers S s
      (r.answered S (fun t => (s.codec.requestLoader S t).1.value)
        fun t => (s.codec.requestDumper S t).1.value)
      (r.effect S s.codec) := by
  cases r with
  | addLoadHook | addDumpHook => exact ⟨rfl, rfl⟩
  | loader t =>
    have h := (CodecM.Answers.loader (S := S) (s := s) t).map fun p => Reply.loader p.2
    rw [← comp_map] at h
    exact h
  | dumper t =>
    have h := (CodecM.Answers.dumper (S := S) (s := s) t).map fun p => Reply.dumper p.2
    rw [← comp_map] at h
    exact h
  | load t input => exact (CodecM.Answers.load t input).map Reply.value
  | loadList t input => exact (CodecM.Answers.load (.list .vector t) input).map Reply.value
  | dump v => exact (CodecM.Answers.dump v).map Reply.tree

end Request

/-! ## What is kept -/

-- The converters that a codec keeps are those that would be compiled now.
structure Codec.Fresh (S : Schema) (c : Codec) : Prop where
  loaders : c.loaders.Fresh (compileLoader S c.options c.hooks)
  dumpers : c.dumpers.Fresh (compileDumper S c.options c.hooks)

namespace Codec.Fresh

variable {S : Schema} {c : Codec}

theorem new (S : Schema) (options : Options) : (Codec.new options).Fresh S :=
  ⟨Cell.fresh_clear {}, Cell.fresh_clear {}⟩

-- A hook makes the converters of the other direction neither stale nor different.
theorem effect (h : c.Fresh S) (r : Request) : (r.effect S c).Fresh S := by
  cases r with
  | addLoadHook t hook =>
    refine ⟨Cell.fresh_clear _, fun u k hk => (h.dumpers u k hk).trans ?_⟩
    exact compileDumper_congr S _ (fun u => (c.hooks.dump?_registerLoad t u hook).symm) u
  | addDumpHook t hook =>
    refine ⟨fun u k hk => (h.loaders u k hk).trans ?_, Cell.fresh_clear _⟩
    exact compileLoader_congr S _ (fun u => (c.hooks.load?_registerDump S t u hook).symm) u
  | loader | load | loadList => exact ⟨h.loaders.get, h.dumpers⟩
  | dumper | dump => exact ⟨h.loaders, h.dumpers.get⟩

theorem answered_eq (h : c.Fresh S) (r : Request) :
    r.answered S (fun t => (c.requestLoader S t).1.value) (fun t => (c.requestDumper S t).1.value) =
      r.compiled S c.options c.hooks := by
  have hl : (fun t => (c.requestLoader S t).1.value) = compileLoader S c.options c.hooks :=
    funext fun _ => h.loaders.value_get
  have hd : (fun t => (c.requestDumper S t).1.value) = compileDumper S c.options c.hooks :=
    funext fun _ => h.dumpers.value_get
  rw [hl, hd, Request.compiled]

end Codec.Fresh

namespace Codec

variable {S : Schema} {c : Codec} {d d' : Direction} {t u : Ty}

-- The number of converters of a direction that were compiled.
def runs (c : Codec) : Direction → Nat
  | .load => c.loaders.runs
  | .dump => c.dumpers.runs

def holds (c : Codec) : Direction → Ty → Bool
  | .load, t => c.loaders.holds t
  | .dump, t => c.dumpers.holds t

-- The codec after a converter was asked for.
def request (S : Schema) (c : Codec) : Direction → Ty → Codec
  | .load, t => (c.requestLoader S t).2
  | .dump, t => (c.requestDumper S t).2

theorem runs_request : (c.request S d t).runs d = if c.holds d t then c.runs d else c.runs d + 1 :=
  match d with
  | .load => c.loaders.runs_get t fun _ => compileLoader S c.options c.hooks t
  | .dump => c.dumpers.runs_get t fun _ => compileDumper S c.options c.hooks t

theorem runs_request_of_ne (h : d ≠ d') : (c.request S d t).runs d' = c.runs d' := by
  cases d <;> cases d' <;> first | rfl | exact absurd rfl h

theorem holds_request : (c.request S d t).holds d u = (c.holds d u || u = t) :=
  match d with
  | .load => c.loaders.holds_get t u fun _ => compileLoader S c.options c.hooks t
  | .dump => c.dumpers.holds_get t u fun _ => compileDumper S c.options c.hooks t

theorem holds_request_of_ne (h : d ≠ d') : (c.request S d t).holds d' u = c.holds d' u := by
  cases d <;> cases d' <;> first | rfl | exact absurd rfl h

-- What is kept in one direction is the same.
def SameCell (c c' : Codec) : Direction → Prop
  | .load => c'.loaders = c.loaders
  | .dump => c'.dumpers = c.dumpers

end Codec

namespace Request

variable {S : Schema} {r : Request} {c : Codec} {d : Direction} {t : Ty}

theorem effect_of_needs (h : r.needs? = some (d, t)) : r.effect S c = c.request S d t := by
  cases r <;> cases h <;> rfl

-- What needs no converter registers a hook, and nothing is compiled.
theorem runs_effect_of_needs_none (h : r.needs? = none) : (r.effect S c).runs d = c.runs d := by
  cases r <;> first | (cases d <;> rfl) | nomatch h

theorem holds_effect (h : r.registers? ≠ some d) (hc : c.holds d t = true) :
    (r.effect S c).holds d t = true := by
  cases hn : r.needs? with
  | some needed =>
    obtain ⟨d', u⟩ := needed
    rw [effect_of_needs hn]
    by_cases hd : d' = d
    · simp [hd, Codec.holds_request, hc]
    · rw [Codec.holds_request_of_ne hd, hc]
  | none => cases r <;> cases d <;> first | exact hc | exact absurd rfl h | nomatch hn

theorem options_effect (r : Request) (c : Codec) : (r.effect S c).options = c.options := by
  cases r <;> rfl

theorem hooks_effect (r : Request) (c : Codec) : (r.effect S c).hooks = r.register S c.hooks := by
  cases r <;> rfl

theorem sameCell_effect {d' : Direction} (hr : r.registers? = some d) (hd : d' ≠ d) :
    c.SameCell (r.effect S c) d' := by
  cases r <;> cases hr <;> cases d' <;> first | rfl | exact absurd rfl hd

-- What needs a converter of one direction is answered alike whatever hook of the other one is
-- registered.
theorem compiled_register {options : Options} {hooks : Hooks} {d' : Direction} {r' : Request}
    (hr : r.registers? = some d) (hd : d' ≠ d) (hr' : r'.needs? = some (d', t)) :
    r'.compiled S options (r.register S hooks) = r'.compiled S options hooks := by
  cases r with
  | addLoadHook u hook =>
    cases hr
    have hdumper : compileDumper S options (hooks.registerLoad u hook) =
        compileDumper S options hooks :=
      funext <| compileDumper_congr S options fun t => hooks.dump?_registerLoad u t hook
    cases r' <;> cases hr' <;>
      first
      | exact absurd rfl hd
      | simp only [compiled, answered, register, hdumper]
  | addDumpHook u hook =>
    cases hr
    have hloader : compileLoader S options (hooks.registerDump S u hook) =
        compileLoader S options hooks :=
      funext <| compileLoader_congr S options fun t => hooks.load?_registerDump S u t hook
    cases r' <;> cases hr' <;>
      first
      | exact absurd rfl hd
      | simp only [compiled, answered, register, hloader]
  | _ => nomatch hr

end Request

namespace Session

variable (S : Schema) (s : Session)

def answer (r : Request) : Except CodecError Reply :=
  match r.run S s with
  | .ok a _ => .ok a
  | .error e _ => .error e

def after (r : Request) : Session :=
  match r.run S s with
  | .ok _ s' | .error _ s' => s'

-- A session with a new codec, after some requests.
def history (options : Options) (rs : List Request) : Session :=
  rs.foldl (fun s r => s.after S r) { codec := .new options }

-- How often requests make a codec compile a converter of a type.
def compilations (d : Direction) (t : Ty) : Session → List Request → Nat
  | _, [] => 0
  | s, r :: rs =>
    (if r.needs? = some (d, t) then (s.after S r).codec.runs d - s.codec.runs d else 0) +
      compilations d t (s.after S r) rs

variable {S s}

theorem codec_after (r : Request) : (s.after S r).codec = r.effect S s.codec := by
  have h := r.run_answers (S := S) s
  unfold CodecM.Answers at h
  unfold after
  cases hr : r.run S s <;> rw [hr] at h <;> exact h.right

theorem answer_eq (h : s.codec.Fresh S) (r : Request) :
    s.answer S r = r.compiled S s.codec.options s.codec.hooks := by
  rw [← h.answered_eq]
  have h := r.run_answers (S := S) s
  unfold CodecM.Answers at h
  unfold answer
  cases hr : r.run S s <;> rw [hr] at h <;> exact h.left.symm

theorem fresh_after (h : s.codec.Fresh S) (r : Request) : (s.after S r).codec.Fresh S := by
  rw [codec_after]
  exact h.effect r

section Compilations

variable {d : Direction} {t : Ty} {r : Request}

-- Only what needs a converter of a direction makes a codec compile one.
theorem runs_after_of_not_needs (h : ∀ t, r.needs? ≠ some (d, t)) :
    (s.after S r).codec.runs d = s.codec.runs d := by
  rw [codec_after]
  cases hn : r.needs? with
  | none => exact Request.runs_effect_of_needs_none hn
  | some needed =>
    obtain ⟨d', u⟩ := needed
    rw [Request.effect_of_needs hn]
    exact Codec.runs_request_of_ne fun hd => h u (hd ▸ hn)

-- What is compiled is kept, and what is kept is not compiled again.
theorem compilations_le {rs : List Request} (hrs : ∀ r ∈ rs, r.registers? ≠ some d) :
    compilations S d t s rs ≤ if s.codec.holds d t then 0 else 1 := by
  induction rs generalizing s with
  | nil => exact Nat.zero_le _
  | cons r rs ih =>
    have ⟨hr, hrs⟩ := List.forall_mem_cons.mp hrs
    have ih := ih (s := s.after S r) hrs
    unfold compilations
    rw [codec_after] at ih ⊢
    by_cases hn : r.needs? = some (d, t)
    case pos =>
      rw [Request.effect_of_needs hn, Codec.holds_request] at ih
      rw [if_pos hn, Request.effect_of_needs hn, Codec.runs_request]
      split <;> simp_all
    case neg =>
      rw [if_neg hn, Nat.zero_add]
      by_cases hs : s.codec.holds d t = true
      case pos => simpa [hs, Request.holds_effect hr hs] using ih
      case neg =>
        rw [if_neg hs]
        split at ih <;> omega

end Compilations

variable (S) in
theorem history_append (options : Options) (rs : List Request) (r : Request) :
    history S options (rs ++ [r]) = (history S options rs).after S r :=
  List.foldl_concat ..

-- After any requests the codec keeps what it would compile, and it has the hooks that were
-- registered.
theorem codec_history (S : Schema) (options : Options) (rs : List Request) :
    (history S options rs).codec.Fresh S ∧ (history S options rs).codec.options = options ∧
      (history S options rs).codec.hooks = Request.registered S rs := by
  induction rs using List.reverseRecOn with
  | nil => exact ⟨.new S options, rfl, rfl⟩
  | append_singleton rs r ih =>
    have ⟨hfresh, hoptions, hhooks⟩ := ih
    rw [history_append, Request.registered_append, ← hhooks]
    refine ⟨fresh_after hfresh r, ?_, ?_⟩ <;> rw [codec_after]
    · exact (r.options_effect _).trans hoptions
    · exact r.hooks_effect _

theorem answer_history (S : Schema) (options : Options) (rs : List Request) (r : Request) :
    (history S options rs).answer S r = r.compiled S options (Request.registered S rs) := by
  have ⟨hfresh, hoptions, hhooks⟩ := codec_history S options rs
  rw [answer_eq hfresh, hoptions, hhooks]

-- A codec after some requests, and one more.
structure UpToDate (S : Schema) (options : Options) (rs : List Request) : Prop where
  -- The answer is that of a new compilation, whatever is kept.
  answers : ∀ r, (history S options rs).answer S r =
    r.compiled S options (Request.registered S rs)
  -- As long as no hook of a direction is registered, a type is compiled once for it, if ever.
  once : ∀ d t rs', (∀ r ∈ rs', r.registers? ≠ some d) →
    compilations S d t (history S options rs) rs' ≤ 1
  needed : ∀ d r, (∀ t, r.needs? ≠ some (d, t)) →
    ((history S options rs).after S r).codec.runs d = (history S options rs).codec.runs d
  -- A hook of one direction changes neither what is kept nor what is answered in the other one.
  apart : ∀ r d d', r.registers? = some d → d' ≠ d →
    (history S options rs).codec.SameCell ((history S options rs).after S r).codec d' ∧
      ∀ r' t, r'.needs? = some (d', t) →
        ((history S options rs).after S r).answer S r' = (history S options rs).answer S r'

end Session

theorem codec_up_to_date (S : Schema) (options : Options) (rs : List Request) :
    Session.UpToDate S options rs := by
  constructor
  case answers => exact Session.answer_history S options rs
  case once =>
    intro d t rs' hrs
    refine Nat.le_trans (Session.compilations_le hrs) ?_
    split <;> decide
  case needed => exact fun _ _ => Session.runs_after_of_not_needs
  case apart =>
    intro r d d' hr hd
    refine ⟨?_, fun r' t hr' => ?_⟩
    · rw [Session.codec_after]
      exact r.sameCell_effect hr hd
    · rw [← Session.history_append, Session.answer_history, Session.answer_history,
        Request.registered_append]
      exact Request.compiled_register hr hd hr'

end TreeCodec
