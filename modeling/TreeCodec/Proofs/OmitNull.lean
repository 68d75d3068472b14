import TreeCodec.Proofs.Omission
import TreeCodec.Proofs.RoundTrip

/-!
What a compiled dumper writes without its nulls, and when a compiled loader reads it back.
-/
namespace TreeCodec

namespace Schema

variable {S : Schema} {t : Ty} {v : Value}

-- Reversible types whose values are dumped as null only for an option that is none.
def definite (S : Schema) (t : Ty) : Bool :=
  S.reversible t && match S.shape t with
    | .dynamic | .scalar (.float _) => false
    | _ => true

theorem reversible_of_definite (h : S.definite t) : S.reversible t :=
  (Bool.and_eq_true_iff.mp h).left

theorem nullable_of_isNull : ∀ {v : Value}, v.isNull → S.nullable v.ty
  | .none _, _ => rfl
  | .boxed v, h => nullable_of_isNull (v := v) h

end Schema

namespace Direct

variable {S : Schema} {options options' : Options} {d : Nat}

-- Whether a value of a type is dumped without nulls, and given back as far as its nulls are kept.
def Returned (S : Schema) (options options' : Options) (d : Nat) (t : Ty) (v : Value) : Prop :=
  ∃ w : Written, w.value = v ∧ w.Returns S (dump S {} options d t) (load S {} options' d t)

theorem Returned.exists_written {t : Ty} {v : Value} (hv : Returned S options options' d t v)
    (h : S.HasType t v) : ∃ w : Written, w.value = v ∧
      w.Returns S (dump S {} options d t) (load S {} options' d t) ∧ w.value.ty = t := by
  obtain ⟨w, rfl, hw⟩ := hv
  exact ⟨w, rfl, hw, h.ty_eq⟩

theorem returned_list {k : ListKind} {t : Ty} {vs : List Value} (h : ∀ v ∈ vs, S.HasType t v)
    (hvs : ∀ v ∈ vs, Returned S options options' d t v) :
    Returned S options options' d (.list k t) (.list k t vs) := by
  have ⟨ws, he, hw⟩ := exists_map fun v hv => (hvs v hv).exists_written (h v hv)
  subst he
  exact ⟨_, rfl, Written.returns_list hw⟩

theorem returned_map {kind : MapKind} {s : ScalarTy} {u : Ty} {es : List (Value × Value)}
    (hs : s.isKey) (hk : ∀ e ∈ es, S.HasType (.scalar s) e.1) (hv : ∀ e ∈ es, S.HasType u e.2)
    (ha : S.KeysApart kind (es.map Prod.fst))
    (hes : ∀ e ∈ es, Returned S options options' d u e.2) :
    Returned S options options' d (.map kind (.scalar s) u) (.map kind (.scalar s) u es) := by
  have hrows : ∀ e ∈ es, ∃ r : WrittenEntry, (r.key, r.part.value) = e ∧
      (∃ tree, dump S {} options d (.scalar s) r.key = pure tree ∧
        Dump.keyText tree = pure r.name) ∧
      load S {} options' d (.scalar s) (some (.text r.name)) = pure r.key ∧
      r.part.Returns S (dump S {} options d u) (load S {} options' d u) ∧ r.part.value.ty = u := by
    intro e he
    have ⟨w, hw, hr⟩ := (hes e he).exists_written (hv e he)
    have ⟨key, name, hkey, hname, hload⟩ := Schema.key_undone (hk e he) hs
    exact ⟨⟨e.1, name, w⟩, by rw [hw], ⟨key, hkey, hname⟩, hload, hr⟩
  have ⟨rows, he, hr⟩ := exists_map hrows
  subst he
  rw [List.map_map] at ha
  refine ⟨_, rfl, WrittenEntry.returns_map (fun r hm => (hr r hm).left)
    (fun r hm => (hr r hm).right.left) ?_ ha fun r hm => (hr r hm).right.right⟩
  exact fun r hm => hk _ (List.mem_map_of_mem (f := fun r => (r.key, r.part.value)) hm)

theorem returned_tuple {ts : List Ty} {vs : List Value} (h : List.Forall₂ S.HasType ts vs)
    (hvs : ∀ t v, (t, v) ∈ ts.zip vs → Returned S options options' d t v) :
    Returned S options options' d (.tuple ts) (.tuple vs) := by
  have ⟨rows, ht, hv, hr⟩ := exists_rows h fun t v hm hty => (hvs t v hm).exists_written hty
  subst ht hv
  have hdump : dump S {} options d (.tuple (rows.map Prod.fst)) = _ :=
    congrArg (dumpTuple S _) (dumpTypes_eq_map _)
  have hload : load S {} options' d (.tuple (rows.map Prod.fst)) = _ :=
    congrArg (loadTuple S _) (loadTypes_eq_map _)
  unfold Returned
  rw [hdump, hload]
  exact ⟨_, rfl, Written.returns_tuple hr⟩

-- A record nests one declared type more than its fields do.
theorem returned_record {id : String} {fields : List Field} {positional : Bool} {vs : List Value}
    (ho : options.omitNull = true) (hs : S.shape (.declared id) = .record fields positional)
    (hr : S.reversible (.declared id)) (h : List.Forall₂ S.HasType (fields.map Field.ty) vs)
    (hvs : ∀ f v, (f, v) ∈ fields.zip vs → Returned S options options' d f.ty v) :
    Returned S options options' (d + 1) (.declared id) (.record id vs) := by
  rw [List.forall₂_map_left_iff] at h
  have ⟨rows, hf, hv, hw⟩ := exists_rows h fun f v hm hty => (hvs f v hm).exists_written hty
  subst hf hv
  have hdump : dump S {} options (d + 1) (.declared id) =
      dumpDeclared S {} options (dumpWithin S {} options d) id := rfl
  have hload : load S {} options' (d + 1) (.declared id) =
      loadDeclared S {} options' (loadWithin S {} options' d) id := rfl
  unfold Returned
  rw [hdump, hload]
  cases positional with
  | true =>
    simp only [dumpDeclared, loadDeclared, hs, if_true]
    exact ⟨_, rfl, Written.returns_sequence hs hw⟩
  | false =>
    have hn : ((rows.map Prod.fst).map Field.key).Nodup := by
      simpa only [Schema.reversible, hs, decide_eq_true_eq] using hr
    simp only [dumpDeclared, loadDeclared, hs, Bool.false_eq_true, if_false]
    exact ⟨_, rfl, Written.returns_mapping ho hs hn hw⟩

-- Dumping and loading may nest as many declared types as the value may.
theorem returned (options' : Options) {t : Ty} {v : Value} (ho : options.omitNull = true)
    (h : S.HasType t v) (hr : ∀ u, S.Contains t u → S.definite u) (hd : v.size ≤ d) :
    Returned S options options' d t v := by
  induction hn : v.size using Nat.strongRecOn generalizing t v d with
  | ind n ih =>
    subst hn
    have hself := hr t .refl
    have hreversible := Schema.reversible_of_definite hself
    -- A part is of a type within and is smaller.
    have hpart : ∀ {u : Ty} {w : Value} {d' : Nat}, u ∈ S.within t → S.HasType u w →
        w.size < v.size → w.size ≤ d' → Returned S options options' d' u w :=
      fun hu hw hlt hle => ih _ hlt hw (fun u' hu' => hr u' (.head hu hu')) hle rfl
    have hscalar : ∀ s, t = .scalar s → Returned S options options' d t v := by
      rintro s rfl
      refine Written.returns_scalar h ?_
      rintro f rfl
      simp [Schema.definite, Schema.shape] at hself
    cases h with
    | bool | char | int | single | double | text => exact hscalar _ rfl
    | tree x hs => simp [Schema.definite, hs] at hself
    | none u => exact ⟨_, rfl, Written.returns_none⟩
    | @some u v h =>
      simp only [Value.size] at hd hpart
      obtain ⟨w, rfl, hw⟩ := hpart (List.mem_singleton_self u) h (Nat.lt_succ_self _)
        (Nat.le_of_succ_le hd)
      have hn : ¬S.nullable u := by simpa [Schema.reversible, Schema.shape] using hreversible
      exact ⟨_, rfl, hw.some h.ty_eq fun hv => hn (h.ty_eq ▸ Schema.nullable_of_isNull hv)⟩
    | @boxed u v h =>
      simp only [Value.size] at hd hpart
      obtain ⟨w, rfl, hw⟩ := hpart (List.mem_singleton_self u) h (Nat.lt_succ_self _)
        (Nat.le_of_succ_le hd)
      exact ⟨_, rfl, hw.boxed h.ty_eq⟩
    | @list k u vs h =>
      simp only [Value.size] at hd hpart
      refine returned_list h fun v hv => ?_
      have hle := Value.size_le_sizeList hv
      exact hpart (List.mem_singleton_self u) (h v hv) (by omega) (by omega)
    | @map kind t u es hk hv ha =>
      simp only [Value.size] at hd hpart
      obtain ⟨s, rfl, hs⟩ := Schema.key_of_reversible hreversible
      refine returned_map hs hk hv ha fun e he => ?_
      have hle := Value.size_le_sizeEntries (k := e.1) (v := e.2) he
      exact hpart (by simp [Schema.within, Schema.shape]) (hv e he) (by omega) (by omega)
    | @tuple ts vs h =>
      simp only [Value.size] at hd hpart
      refine returned_tuple h fun t v hm => ?_
      obtain ⟨ht, hv⟩ := List.of_mem_zip hm
      have hle := Value.size_le_sizeList hv
      exact hpart ht ((List.forall₂_iff_zip.mp h).right hm) (by omega) (by omega)
    | @record id fields positional vs hs h =>
      simp only [Value.size] at hd hpart
      obtain ⟨d, rfl⟩ : ∃ d', d = d' + 1 := ⟨d - 1, by omega⟩
      refine returned_record ho hs hreversible h fun f v hm => ?_
      obtain ⟨hf, hv⟩ := List.of_mem_zip hm
      have hle := Value.size_le_sizeList hv
      have hty : S.HasType f.ty v :=
        (List.forall₂_iff_zip.mp (List.forall₂_map_left_iff.mp h)).right hm
      exact hpart (by simpa [Schema.within, hs] using ⟨f, hf, rfl⟩) hty (by omega) (by omega)
    | @union id variants i variant v hs =>
      simp [Schema.reversible, hs] at hreversible

end Direct

theorem Run.gives_of_untrailed_eq {α : Type} {x y : Run α} {P : α → Prop}
    (h : x.outcome.untrailed = y.outcome.untrailed) : x.Gives P ↔ y.Gives P := by
  refine exists_congr fun a => and_congr_left fun _ => ?_
  rw [← Outcome.untrailed_eq_done_iff, h, Outcome.untrailed_eq_done_iff]

-- Retries, limited in number unless they are said not to be, with others that follow them.
def retries : Schema where
  declarations := [
    ("Retry", {
      names := .qualified "app" "Retry"
      definition := .record [
        { name := "limit", key := "limit", ty := .optional (.scalar (.int .i32)),
          default := some (.some (.int .i32 5)) },
        { name := "pause", key := "pause", ty := .declared "Pause" }] false }),
    ("Pause", {
      names := .qualified "app" "Pause"
      definition := .record [
        { name := "delay", key := "delay", ty := .optional (.scalar (.int .u32)) },
        { name := "next", key := "next", ty := .list .vector (.declared "Retry") }] false })]

def retry (limit delay : Value) (next : List Value) : Value :=
  .record "Retry" [limit, .record "Pause" [delay, .list .vector (.declared "Retry") next]]

def noLimit : Value := .none (.scalar (.int .i32))

def noDelay : Value := .none (.scalar (.int .u32))

def limitedRetry : Value :=
  retry (.some (.int .i32 3)) noDelay [retry (.some (.int .i32 5)) (.some (.int .u32 1)) []]

def unlimitedRetry : Value := retry noLimit noDelay []

-- Retries without a limit, as they are written without nulls.
def unlimitedTree : Tree := .object [("pause", .object [("next", .array [])])]

theorem hasType_retry {limit delay : Value} {next : List Value}
    (hl : retries.HasType (.optional (.scalar (.int .i32))) limit)
    (hd : retries.HasType (.optional (.scalar (.int .u32))) delay)
    (hn : ∀ v ∈ next, retries.HasType (.declared "Retry") v) :
    retries.HasType (.declared "Retry") (retry limit delay next) :=
  .record rfl <| .cons hl <| .cons (.record rfl <| .cons hd <| .cons (.list hn) .nil) .nil

-- Only the limit has a default.
theorem nullsKept_retry {limit delay : Value} {next : List Value} :
    retries.NullsKept (retry limit delay next) ↔
      (limit.isNull → limit.Same (.some (.int .i32 5))) ∧ retries.NullsKept limit ∧
        retries.NullsKept delay ∧ ∀ v ∈ next, retries.NullsKept v := by
  have hpause : retries.NullsKept
      (.record "Pause" [delay, .list .vector (.declared "Retry") next]) ↔
      retries.NullsKept delay ∧ ∀ v ∈ next, retries.NullsKept v := by
    rw [Schema.nullsKept_mapping rfl]
    simp [Field.Keeps, Schema.nullsKept_list]
  rw [retry, Schema.nullsKept_mapping rfl]
  simp [Field.Keeps, hpause]

theorem hasType_limitedRetry : retries.HasType (.declared "Retry") limitedRetry := by
  have hnext : retries.HasType (.declared "Retry")
      (retry (.some (.int .i32 5)) (.some (.int .u32 1)) []) :=
    hasType_retry (.some (.int rfl)) (.some (.int rfl)) nofun
  exact hasType_retry (.some (.int rfl)) (.none _) (List.forall_mem_singleton.mpr hnext)

theorem nullsKept_limitedRetry : retries.NullsKept limitedRetry := by
  have hint : ∀ i n, retries.NullsKept (.some (.int i n)) := fun i n =>
    Schema.nullsKept_some.mpr <| (Schema.nullsKept_iff (by nofun)).mpr nofun
  have hnext : retries.NullsKept (retry (.some (.int .i32 5)) (.some (.int .u32 1)) []) :=
    nullsKept_retry.mpr ⟨nofun, hint .i32 5, hint .u32 1, nofun⟩
  exact nullsKept_retry.mpr
    ⟨nofun, hint .i32 3, .of_isNull rfl, List.forall_mem_singleton.mpr hnext⟩

theorem definite_retries : ∀ t, retries.Contains (.declared "Retry") t → retries.definite t :=
  Schema.forall_contains (by decide +kernel)

theorem helpersDistinct_retries (d : Direction) :
    Settings.HelpersDistinct ⟨retries, d, {}, { omitNull := true }⟩ (.declared "Retry") := by
  cases d <;> exact Settings.helpersDistinct_of_nodup (by decide +kernel)

-- A dumper that leaves nulls out loses those for which a loader has another default, and no others.
theorem load_dump_omitting {S : Schema} {options options' : Options} {root : Ty} {x : Value}
    (ho : options.omitNull = true) (hr : ∀ t, S.Contains root t → S.definite t)
    (hdump : Settings.HelpersDistinct ⟨S, .dump, {}, options⟩ root)
    (hload : Settings.HelpersDistinct ⟨S, .load, {}, options'⟩ root) (hx : S.HasType root x) :
    ∃ dumper loader tree,
      (compileDumper S options {} root).result = .ok dumper ∧
      (compileLoader S options' {} root).result = .ok loader ∧
      (dumper.dump S x).outcome = .done tree ∧
      ((∃ y, (loader.load S tree).outcome = .done y ∧ x.Same y) ↔ S.NullsKept x) := by
  have hreversible : ∀ t, S.Contains root t → S.reversible t :=
    fun t ht => Schema.reversible_of_definite (hr t ht)
  have ⟨dumper, hdumper, hdirect⟩ := exists_dumper hreversible hdump
  have ⟨loader, hloader, hdirect'⟩ := exists_loader hreversible hload
  have ⟨N, hN⟩ := hdirect x hx.ty_eq
  -- The tree is dumped directly as well, from a depth on.
  have hdeep : ∀ d, max N x.size ≤ d → ∃ tree, (dumper.dump S x).outcome = .done tree ∧
      ((Direct.load S {} options' d root (some tree)).Gives x.Same ↔ S.NullsKept x) := by
    intro d hd
    obtain ⟨w, rfl, hw⟩ := Direct.returned options' ho hx hr (Nat.le_trans (Nat.le_max_right ..) hd)
    have he := hN d (Nat.le_trans (Nat.le_max_left ..) hd)
    rw [hw.dumped, Run.outcome_pure, Outcome.untrailed_done] at he
    exact ⟨w.tree, Outcome.untrailed_eq_done_iff.mp he, hw.back⟩
  have ⟨tree, htree, _⟩ := hdeep _ (Nat.le_refl _)
  have ⟨M, hM⟩ := hdirect' tree
  have ⟨tree', htree', hback⟩ := hdeep _ (Nat.le_max_right M _)
  cases htree.symm.trans htree'
  refine ⟨dumper, loader, tree, hdumper, hloader, htree, ?_⟩
  exact (Run.gives_of_untrailed_eq (hM _ (Nat.le_max_left ..))).trans hback

theorem load_dump_omitting_limitedRetry :
    ∃ dumper loader tree y,
      (compileDumper retries { omitNull := true } {} (.declared "Retry")).result = .ok dumper ∧
      (compileLoader retries { omitNull := true } {} (.declared "Retry")).result = .ok loader ∧
      (dumper.dump retries limitedRetry).outcome = .done tree ∧
      (loader.load retries tree).outcome = .done y ∧ limitedRetry.Same y := by
  have ⟨dumper, loader, tree, hdumper, hloader, htree, hback⟩ :=
    load_dump_omitting rfl definite_retries (helpersDistinct_retries .dump)
      (helpersDistinct_retries .load) hasType_limitedRetry
  have ⟨y, hy, hsame⟩ := hback.mpr nullsKept_limitedRetry
  exact ⟨dumper, loader, tree, y, hdumper, hloader, htree, hy, hsame⟩

-- Retries without a limit are given back with the limit that is the default.
theorem omitting_loses_limit :
    (∀ t, retries.Contains (.declared "Retry") t → retries.definite t) ∧
    (∀ d, Settings.HelpersDistinct ⟨retries, d, {}, { omitNull := true }⟩ (.declared "Retry")) ∧
    retries.HasType (.declared "Retry") unlimitedRetry ∧
    ∃ dumper loader tree y,
      (compileDumper retries { omitNull := true } {} (.declared "Retry")).result = .ok dumper ∧
      (compileLoader retries { omitNull := true } {} (.declared "Retry")).result = .ok loader ∧
      (dumper.dump retries unlimitedRetry).outcome = .done tree ∧
      (loader.load retries tree).outcome = .done y ∧ ¬unlimitedRetry.Same y := by
  have hreversible := fun t ht => Schema.reversible_of_definite (definite_retries t ht)
  have ⟨dumper, hdumper, hdirect⟩ := exists_dumper hreversible (helpersDistinct_retries .dump)
  have ⟨loader, hloader, hdirect'⟩ := exists_loader hreversible (helpersDistinct_retries .load)
  have ⟨N, hN⟩ := hdirect unlimitedRetry rfl
  have ⟨M, hM⟩ := hdirect' unlimitedTree
  refine ⟨definite_retries, helpersDistinct_retries, hasType_retry (.none _) (.none _) nofun,
    dumper, loader, unlimitedTree, retry (.some (.int .i32 5)) noDelay [], hdumper, hloader, ?_, ?_,
    ?_⟩
  · exact Outcome.untrailed_eq_done_iff.mp (hN (N + 2) (Nat.le_add_right ..))
  · exact Outcome.untrailed_eq_done_iff.mp (hM (M + 2) (Nat.le_add_right ..))
  · intro h
    nomatch List.forall₂_cons.mp (Value.record_same_record.mp h)

end TreeCodec
