import TreeCodec.Proofs.Form

/-!
What a step of a compilation leaves, when it succeeds, and why it may fail.
-/
namespace TreeCodec.CompileM

variable {α β : Type} {s : Settings} {c : Context}

-- A step that is taken in `c` ends with `post`, or it fails with `fail`.
def Sat (step : CompileM α) (s : Settings) (c : Context) (post : α → Context → Prop)
    (fail : CodegenError → Prop) : Prop :=
  match step s c with
  | .ok a c' => post a c'
  | .error e _ => fail e

namespace Sat

variable {post post' : α → Context → Prop} {postβ : β → Context → Prop}
  {fail fail' : CodegenError → Prop}

theorem result {step : CompileM α} {a : α} {c' : Context} (h : Sat step s c post fail)
    (hr : step s c = .ok a c') : post a c' := by
  simpa only [Sat, hr] using h

theorem error {step : CompileM α} {e : CodegenError} {c' : Context} (h : Sat step s c post fail)
    (hr : step s c = .error e c') : fail e := by
  simpa only [Sat, hr] using h

theorem imp {step : CompileM α} (h : Sat step s c post fail)
    (hp : ∀ a c', post a c' → post' a c') : Sat step s c post' fail := by
  unfold Sat at *
  split <;> simp_all only

theorem imp_fail {step : CompileM α} (h : Sat step s c post fail)
    (hf : ∀ e, fail e → fail' e) : Sat step s c post fail' := by
  unfold Sat at *
  split <;> simp_all only

theorem of_forall {step : CompileM α} (h : ∀ a c', post a c') (hf : ∀ e, fail e) :
    Sat step s c post fail := by
  unfold Sat
  cases step s c with
  | ok a c' => exact h a c'
  | error e _ => exact hf e

theorem pure {a : α} (h : post a c) : Sat (Pure.pure a) s c post fail :=
  h

theorem throw {e : CodegenError} (h : fail e) : Sat (MonadExcept.throw e) s c post fail :=
  h

theorem bind {x : CompileM α} {f : α → CompileM β}
    (h : Sat x s c (fun a c' => Sat (f a) s c' postβ fail) fail) :
    Sat (x >>= f) s c postβ fail := by
  show match EStateM.bind (x s) (fun a => f a s) c with
    | .ok a c' => postβ a c'
    | .error e _ => fail e
  unfold Sat at h
  unfold EStateM.bind
  cases hx : x s c <;> simp_all only

-- The usual way to take a first step whose result is known.
theorem seq {x : CompileM α} {f : α → CompileM β} (hx : Sat x s c post fail)
    (hf : ∀ a c', post a c' → Sat (f a) s c' postβ fail) : Sat (x >>= f) s c postβ fail :=
  bind <| hx.imp hf

theorem read {post : Settings → Context → Prop} (h : post s c) :
    Sat MonadReader.read s c post fail :=
  h

theorem get {post : Context → Context → Prop} (h : post c c) :
    Sat MonadState.get s c post fail :=
  h

theorem set {c' : Context} {post : PUnit → Context → Prop} (h : post .unit c') :
    Sat (MonadStateOf.set c') s c post fail :=
  h

theorem modify {f : Context → Context} {post : PUnit → Context → Prop} (h : post .unit (f c)) :
    Sat (MonadState.modifyGet fun c => (.unit, f c)) s c post fail :=
  h

theorem schema {post : Schema → Context → Prop} (h : post s.schema c) :
    Sat CompileM.schema s c post fail :=
  h

theorem direction {post : Direction → Context → Prop} (h : post s.direction c) :
    Sat CompileM.direction s c post fail :=
  h

theorem param {post : Operand → Context → Prop}
    (h : post (.var s.direction.param) c) : Sat CompileM.param s c post fail := by
  refine bind <| direction ?_
  cases hd : s.direction <;> rw [hd] at h <;> exact h

theorem ofExcept {x : Except CodegenError α} (h : ∀ a, x = .ok a → post a c)
    (hf : ∀ e, x = .error e → fail e) : Sat (ofExcept x) s c post fail := by
  cases x with
  | ok a => exact h a rfl
  | error e => exact hf e rfl

theorem liftKind {x : Except KindMismatch α} {a : α} (hx : x = .ok a) (h : post a c) :
    Sat (Compile.liftKind x) s c post fail :=
  hx ▸ h

-- A failure is kept, and what is done after it has to hold in any context.
theorem attempt {step : CompileM α} {post : Except CodegenError α → Context → Prop}
    (h : Sat step s c (fun a => post (.ok a)) fun e => ∀ c', post (.error e) c') :
    Sat (attempt step) s c post fail := by
  unfold Sat at *
  unfold CompileM.attempt
  cases hx : step s c <;> simp_all only

theorem nested {displayName name : String} {step : CompileM α}
    {post : Except CodegenError α × Context → Context → Prop}
    (h : Sat step s (c.child displayName name) (fun a c' => post (.ok a, c') (c.rejoin c'))
      fun e => ∀ c', post (.error e, c') (c.rejoin c')) :
    Sat (nested displayName name step) s c post fail := by
  unfold Sat at *
  unfold CompileM.nested
  cases hx : step s (c.child displayName name) <;> simp_all only

end Sat
end TreeCodec.CompileM
