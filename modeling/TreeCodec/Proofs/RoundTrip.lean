import TreeCodec.Proofs.DirectRoundTrip
import TreeCodec.Proofs.DumpAgreement
import TreeCodec.Proofs.LoadAgreement

/-!
What a compiled dumper writes, a compiled loader reads back.
-/
namespace TreeCodec

section

variable {S : Schema} {options : Options} {root : Ty}

theorem Reached.contains {s : Settings} {t : Ty} (h : Reached s root t) :
    s.schema.Contains root t := by
  induction h with
  | root => exact .refl
  | within _ _ hu ih => exact ih.tail hu

-- Types that compilation looks at include those in the graph of the root.
theorem Schema.forall_contains {P : Ty → Prop} (h : ∀ t ∈ WrapperSet.reachable S [root], P t) :
    ∀ t, S.Contains root t → P t := by
  intro t ht
  have hreached : Reached ⟨S, .load, {}, {}⟩ root t := by
    induction ht with
    | refl => exact .root
    | tail _ hu ih => exact .within ih rfl hu
  exact h t hreached.mem_reachable

theorem exists_source (hr : ∀ t, S.Contains root t → S.reversible t) (options : Options)
    (d : Direction) : ∃ source, (compileProcedures S options {} d root).result = .ok source := by
  refine compileProcedures_ok fun t ht hs => ?_
  have hreversible := hr t ht.contains
  simp [Schema.reversible, hs] at hreversible

theorem exists_loader (hr : ∀ t, S.Contains root t → S.reversible t)
    (hd : Settings.HelpersDistinct ⟨S, .load, {}, options⟩ root) :
    ∃ l, (compileLoader S options {} root).result = .ok l ∧ ∀ t, ∃ N, ∀ d, N ≤ d →
      (l.load S t).outcome.untrailed =
        (Direct.load S {} options d root (some t)).outcome.untrailed := by
  have ⟨source, hs⟩ := exists_source hr options .load
  have ⟨_, _, hc, hlink, hU⟩ := exists_loadsTargets hs (hd source hs)
  have ⟨i, hi⟩ := hU.named _ _ hc.entry
  exact ⟨_, compileLoader_of_link hs hlink hi, fun t => hU.load_eq_direct hc rfl hi (some t)⟩

theorem exists_dumper (hr : ∀ t, S.Contains root t → S.reversible t)
    (hd : Settings.HelpersDistinct ⟨S, .dump, {}, options⟩ root) :
    ∃ dumper, (compileDumper S options {} root).result = .ok dumper ∧ ∀ v, v.ty = root →
      ∃ N, ∀ d, N ≤ d → (dumper.dump S v).outcome.untrailed =
        (Direct.dump S {} options d root v).outcome.untrailed := by
  have ⟨source, hs⟩ := exists_source hr options .dump
  have ⟨_, _, hc, hlink, hU⟩ := exists_dumpsTargets hs (hd source hs)
  have ⟨i, hi⟩ := hU.named _ _ hc.entry
  refine ⟨_, compileDumper_of_link hs hlink hi, fun v hv => ?_⟩
  have ⟨N, hN⟩ := hU.dump_eq_direct hc rfl hi v
  refine ⟨N, fun d hd => ?_⟩
  simp only [Dumper.dump, hv, if_true]
  exact hN d hd

end

-- A record with a map and, behind an option and a box, a record of its own type.
def ledger : Schema where
  declarations := [
    ("Ledger", {
      names := .qualified "app" "Ledger"
      definition := .record [
        { name := "settled", key := "settled",
          ty := .map .unordered (.scalar (.int .i32)) (.scalar .bool) },
        { name := "next", key := "next", ty := .optional (.boxed (.declared "Ledger")) }] false })]

-- Loading undoes dumping.
theorem load_dump {S : Schema} {options : Options} {root : Ty} {x : Value}
    (hr : ∀ t, S.Contains root t → S.reversible t)
    (hdump : Settings.HelpersDistinct ⟨S, .dump, {}, {}⟩ root)
    (hload : Settings.HelpersDistinct ⟨S, .load, {}, options⟩ root)
    (hx : S.HasType root x) (hf : ∀ y ∈ x.doubles, y.isFinite) :
    ∃ dumper loader tree y,
      (compileDumper S {} {} root).result = .ok dumper ∧
      (compileLoader S options {} root).result = .ok loader ∧
      (dumper.dump S x).outcome = .done tree ∧ (loader.load S tree).outcome = .done y ∧
      x.Same y := by
  have ⟨dumper, hdumper, hdirect⟩ := exists_dumper hr hdump
  have ⟨loader, hloader, hdirect'⟩ := exists_loader hr hload
  have ⟨N, hN⟩ := hdirect x hx.ty_eq
  -- The tree is the same whenever the value is dumped deeply enough.
  have htree : ∀ {d : Nat} {p : Trip}, N ≤ d → p.value = x →
      p.Closes S (Direct.dump S {} {} d root) (Direct.load S {} options d root) →
      (dumper.dump S x).outcome = .done p.tree := by
    intro d p hd hp hc
    have he := hN d hd
    rw [← hp, hc.dumped, Run.outcome_pure, Outcome.untrailed_done] at he
    exact hp ▸ Outcome.untrailed_eq_done_iff.mp he
  have ⟨p, hp, hc⟩ := Direct.undone options hx hr hf (Nat.le_max_right N x.size)
  have ⟨M, hM⟩ := hdirect' p.tree
  have ⟨q, hq, hc'⟩ := Direct.undone options hx hr hf
    (Nat.le_trans (Nat.le_max_right N x.size) (Nat.le_max_right M _))
  have hpt := htree (Nat.le_max_left ..) hp hc
  have hqt := htree (Nat.le_trans (Nat.le_max_left ..) (Nat.le_max_right M _)) hq hc'
  have htrees : q.tree = p.tree := Outcome.done.inj (hqt.symm.trans hpt)
  have hback := hM (max M (max N x.size)) (Nat.le_max_left ..)
  rw [← htrees, hc'.loaded, Run.outcome_pure, Outcome.untrailed_done] at hback
  refine ⟨dumper, loader, p.tree, q.back, hdumper, hloader, hpt, ?_, hq ▸ hc'.same⟩
  exact htrees ▸ Outcome.untrailed_eq_done_iff.mp hback

def settled (es : List (Value × Value)) : Value :=
  .map .unordered (.scalar (.int .i32)) (.scalar .bool) es

def ledgerValue : Value :=
  .record "Ledger" [settled [(.int .i32 7, .bool true), (.int .i32 (-12), .bool false)],
    .some (.boxed (.record "Ledger" [settled [], .none (.boxed (.declared "Ledger"))]))]

theorem hasType_ledgerValue : ledger.HasType (.declared "Ledger") ledgerValue := by
  have hlast : ledger.HasType (.declared "Ledger")
      (.record "Ledger" [settled [], .none (.boxed (.declared "Ledger"))]) :=
    .record rfl <| .cons (.map nofun nofun .nil) <| .cons (.none _) .nil
  refine .record rfl <| .cons (.map ?_ ?_ ?_) <| .cons (.some (.boxed hlast)) .nil
  · exact List.forall_mem_cons.mpr ⟨.int rfl, List.forall_mem_singleton.mpr (.int rfl)⟩
  · exact List.forall_mem_cons.mpr ⟨.bool _, List.forall_mem_singleton.mpr (.bool _)⟩
  · simp [Schema.KeysApart, Schema.sameKey, Value.ty]

theorem load_dump_ledger :
    ∃ dumper loader tree y,
      (compileDumper ledger {} {} (.declared "Ledger")).result = .ok dumper ∧
      (compileLoader ledger { denyUnknownKeys := true } {} (.declared "Ledger")).result = .ok loader ∧
      (dumper.dump ledger ledgerValue).outcome = .done tree ∧
      (loader.load ledger tree).outcome = .done y ∧ ledgerValue.Same y :=
  load_dump (Schema.forall_contains (by decide +kernel))
    (Settings.helpersDistinct_of_nodup (by decide +kernel))
    (Settings.helpersDistinct_of_nodup (by decide +kernel)) hasType_ledgerValue (by decide +kernel)

end TreeCodec
