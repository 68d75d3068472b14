import Mathlib.Data.List.Induction
import TreeCodec.Derive.Setting
import TreeCodec.Proofs.Lists

/-!
Settings as they are written in attributes.

A vocabulary says which settings there are and how each is written. Attributes set what is listed in
them if every setting is one of the vocabulary and no name comes twice, in one attribute or in
several. Otherwise the first setting that is not so is reported. The settings are read one by one
and added to those that are there, and what is added so far tells exactly which names came.
-/
namespace TreeCodec.Derive.Setting

/-! ## Names -/

theorem eq_of_afterMoreNames {ts rest : List Token} (h : afterMoreNames ts = .ok rest)
    (hlen : rest.length = ts.length) : rest = ts := by
  fun_induction afterMoreNames ts with
  | case1 j name ts ih =>
    have := afterMoreNames_length h
    simp only [List.length_cons] at hlen
    omega
  | case2 => cases h
  | case3 => exact (Except.ok.inj h).symm

-- A name stands alone.
theorem eq_of_readName {ts rest : List Token} {name : String}
    (h : readName ts = .ok (some name, rest)) : ts = .word name :: rest := by
  unfold readName at h
  split at h
  case h_1 name' ts =>
    obtain ⟨after, hafter, hpair⟩ := map_eq_ok_iff.mp h
    simp only [Prod.mk.injEq] at hpair
    obtain ⟨hname, rfl⟩ := hpair
    split at hname
    case isTrue hlen =>
      obtain rfl := Option.some.inj hname
      rw [eq_of_afterMoreNames hafter hlen]
    case isFalse => nomatch hname
  case h_2 =>
    obtain ⟨after, hafter, hpair⟩ := map_eq_ok_iff.mp h
    nomatch hpair
  all_goals nomatch h

theorem readName_word {rest : List Token} (name : String)
    (h : ∀ ts, rest ≠ .mark ':' true :: ts) :
    readName (.word name :: rest) = .ok (some name, rest) := by
  have hafter : afterMoreNames rest = .ok rest := by
    unfold afterMoreNames
    split
    case h_1 => exact absurd rfl (h _)
    case h_2 => exact absurd rfl (h _)
    case h_3 => rfl
  simp [readName, hafter, Except.map]

/-! ## Vocabularies -/

-- What may come behind a setting.
inductive Stops : List Token → Prop
  | atEnd : Stops []
  | comma (j : Bool) (ts : List Token) : Stops (.mark ',' j :: ts)

-- The settings that may be written in one kind of place.
structure Vocabulary (α : Type) where
  names   : List String
  name    : α → String
  -- How a setting is written behind its name.
  Value   : α → List Token → Prop
  -- What is written behind a name, and how many tokens it is.
  read    : String → List Token → Except DeriveError (α × Nat)
  -- What is reported of a name that is none of these.
  unknown : DeriveError
  name_mem      : ∀ a, name a ∈ names
  value_start   : ∀ {a us}, Value a us → ∀ ts, us ≠ .mark ':' true :: ts
  read_of_value : ∀ {a us ts}, Value a us → Stops ts → read (name a) (us ++ ts) = .ok (a, us.length)
  value_of_read : ∀ {n ts a k}, n ∈ names → read n ts = .ok (a, k) →
    name a = n ∧ Value a (ts.take k)

namespace Vocabulary

variable {α : Type} (V : Vocabulary α)

-- Settings with a comma behind each.
inductive Ended : List Token → List α → Prop
  | nil : Ended [] []
  | cons {a : α} {us ts : List Token} {as : List α} (j : Bool) (ha : V.Value a us)
      (h : Ended ts as) : Ended (.word (V.name a) :: (us ++ .mark ',' j :: ts)) (a :: as)

-- Settings with a comma between every two, and perhaps one behind the last.
inductive Listed : List Token → List α → Prop
  | closed {ts : List Token} {as : List α} (h : V.Ended ts as) : Listed ts as
  | unclosed {a : α} {us ts : List Token} {as : List α} (h : V.Ended ts as) (ha : V.Value a us) :
    Listed (ts ++ .word (V.name a) :: us) (as ++ [a])

def Distinct (as : List α) : Prop := (as.map V.name).Nodup

-- What is wrong with the setting that some tokens start with, if others came before it.
inductive Fault (before : List α) (ts : List Token) : DeriveError → Prop
  | unnamed {e : DeriveError} (hn : readName ts = .error e) : Fault before ts e
  | unknown {n : Option String} {rest : List Token} (hn : readName ts = .ok (n, rest))
      (hu : ∀ name ∈ V.names, n ≠ some name) : Fault before ts V.unknown
  | repeated {n : String} {rest : List Token} (hn : readName ts = .ok (some n, rest))
      (hb : n ∈ before.map V.name) : Fault before ts (.duplicate n)
  | value {n : String} {rest : List Token} {e : DeriveError}
      (hn : readName ts = .ok (some n, rest)) (hv : n ∈ V.names) (hb : n ∉ before.map V.name)
      (hr : V.read n rest = .error e) : Fault before ts e
  | unseparated {n : String} {rest : List Token} {a : α} {k : Nat}
      (hn : readName ts = .ok (some n, rest)) (hv : n ∈ V.names) (hb : n ∉ before.map V.name)
      (hr : V.read n rest = .ok (a, k)) (hs : ¬Stops (rest.drop k)) :
    Fault before ts (.missing ",")

-- What is wrong with the first setting that is not as it should be.
inductive FaultIn (before : List α) : List Token → DeriveError → Prop
  | intro {ts us : List Token} {as : List α} {e : DeriveError} (h : V.Ended ts as)
      (hd : V.Distinct (before ++ as)) (hne : us ≠ []) (hf : V.Fault (before ++ as) us e) :
    FaultIn before (ts ++ us) e

variable {V} {before as : List α} {a : α} {us ts : List Token} {e : DeriveError}

theorem Distinct.of_append (h : V.Distinct (before ++ as)) : V.Distinct before := by
  unfold Distinct at h
  rw [List.map_append] at h
  exact (List.nodup_append.mp h).left

theorem distinct_concat_iff :
    V.Distinct (before ++ [a]) ↔ V.Distinct before ∧ V.name a ∉ before.map V.name := by
  simp [Distinct, List.nodup_append]

section More

variable (j : Bool) (ha : V.Value a us)
include ha

theorem Listed.cons (h : V.Listed ts as) :
    V.Listed (.word (V.name a) :: (us ++ .mark ',' j :: ts)) (a :: as) := by
  cases h with
  | closed h => exact .closed (.cons j ha h)
  | @unclosed b vs ts as h hb =>
    have := Listed.unclosed (.cons j ha h) hb
    simpa only [List.cons_append, List.append_assoc] using this

theorem FaultIn.cons (h : V.FaultIn (before ++ [a]) ts e) :
    V.FaultIn before (.word (V.name a) :: (us ++ .mark ',' j :: ts)) e := by
  obtain @⟨ts, vs, as, e, h, hd, hne, hf⟩ := h
  rw [List.append_assoc, List.singleton_append] at hd hf
  have := FaultIn.intro (.cons j ha h) hd hne hf
  simpa only [List.cons_append, List.append_assoc] using this

end More

-- Tokens start with one more setting, or with what is wrong with it.
theorem setting_or_fault (V : Vocabulary α) (before : List α) (ts : List Token) :
    (∃ a us rest, ts = .word (V.name a) :: (us ++ rest) ∧ V.Value a us ∧
      V.name a ∉ before.map V.name ∧ Stops rest) ∨ ∃ e, V.Fault before ts e := by
  cases hn : readName ts with
  | error e => exact .inr ⟨e, .unnamed hn⟩
  | ok r =>
    obtain ⟨n, rest⟩ := r
    by_cases hv : ∃ name ∈ V.names, n = some name
    case neg => exact .inr ⟨_, .unknown hn fun name hm he => hv ⟨name, hm, he⟩⟩
    case pos =>
      obtain ⟨name, hv, rfl⟩ := hv
      by_cases hb : name ∈ before.map V.name
      case pos => exact .inr ⟨_, .repeated hn hb⟩
      case neg =>
        cases hr : V.read name rest with
        | error e => exact .inr ⟨e, .value hn hv hb hr⟩
        | ok r =>
          obtain ⟨a, k⟩ := r
          by_cases hs : Stops (rest.drop k)
          case neg => exact .inr ⟨_, .unseparated hn hv hb hr hs⟩
          case pos =>
            obtain ⟨rfl, ha⟩ := V.value_of_read hv hr
            refine .inl ⟨a, rest.take k, rest.drop k, ?_, ha, hb, hs⟩
            rw [List.take_append_drop]
            exact eq_of_readName hn

-- The induction is on the tokens that are left. All settings before them are as they should be.
theorem listed_or_fault {before : List α} (hd : V.Distinct before) (ts : List Token) :
    (∃ as, V.Listed ts as ∧ V.Distinct (before ++ as)) ∨ ∃ e, V.FaultIn before ts e := by
  by_cases hne : ts = []
  case pos =>
    subst hne
    exact .inl ⟨[], .closed .nil, by rwa [List.append_nil]⟩
  case neg =>
    rcases V.setting_or_fault before ts with ⟨a, us, rest, rfl, ha, hb, hs⟩ | ⟨e, hf⟩
    case inr =>
      rw [← List.append_nil before] at hd hf
      exact .inr ⟨e, .intro .nil hd hne hf⟩
    case inl =>
      have hd' : V.Distinct (before ++ [a]) := distinct_concat_iff.mpr ⟨hd, hb⟩
      cases hs with
      | atEnd => exact .inl ⟨[a], by simpa using Listed.unclosed .nil ha, hd'⟩
      | comma j ts =>
        rcases listed_or_fault hd' ts with ⟨as, h, hd⟩ | ⟨e, hf⟩
        · rw [List.append_assoc] at hd
          exact .inl ⟨a :: as, h.cons j ha, hd⟩
        · exact .inr ⟨e, hf.cons j ha⟩
termination_by ts.length

/-! ## Reading settings -/

-- Adding a setting to those that are gathered looks at its name first, and then gathers it too.
structure Gathers {σ : Type} (V : Vocabulary α) (gather : List α → σ)
    (add : σ → Option String → List Token → Except DeriveError (σ × Nat)) : Prop where
  unknown  : ∀ s {n} ts, (∀ name ∈ V.names, n ≠ some name) → add s n ts = .error V.unknown
  repeated : ∀ {as n} ts, n ∈ as.map V.name → add (gather as) (some n) ts = .error (.duplicate n)
  new      : ∀ {as n} ts, n ∈ V.names → n ∉ as.map V.name → add (gather as) (some n) ts =
    (V.read n ts).map fun (a, k) => (gather (as ++ [a]), k)

section Read

variable {σ : Type} {gather : List α → σ}
variable {add : σ → Option String → List Token → Except DeriveError (σ × Nat)}

def readTokens (add : σ → Option String → List Token → Except DeriveError (σ × Nat)) (s : σ)
    (ts : List Token) : Except DeriveError σ :=
  if ts.isEmpty then .ok s else readAll add s ts

-- What follows a setting: nothing, or a comma and perhaps more settings.
def readRest (add : σ → Option String → List Token → Except DeriveError (σ × Nat)) (s : σ) :
    List Token → Except DeriveError σ
  | [] => .ok s
  | .mark ',' _ :: ts => readTokens add s ts
  | _ => .error (.missing ",")

variable {s s' : σ} {n : Option String} {rest : List Token} {k : Nat}

theorem readAll_of_unnamed (hn : readName ts = .error e) : readAll add s ts = .error e := by
  rw [readAll]
  split
  case h_1 he =>
    cases he.symm.trans hn
    rfl
  case h_2 he => cases hn.symm.trans he

theorem readAll_of_refused (hn : readName ts = .ok (n, rest)) (ha : add s n rest = .error e) :
    readAll add s ts = .error e := by
  rw [readAll]
  split
  case h_1 he => cases hn.symm.trans he
  case h_2 he =>
    cases hn.symm.trans he
    split
    case h_1 he =>
      cases he.symm.trans ha
      rfl
    case h_2 he => cases ha.symm.trans he

theorem readAll_of_added (hn : readName ts = .ok (n, rest)) (ha : add s n rest = .ok (s', k)) :
    readAll add s ts = readRest add s' (rest.drop k) := by
  rw [readAll]
  split
  case h_1 he => cases hn.symm.trans he
  case h_2 he =>
    cases hn.symm.trans he
    split
    case h_1 he => cases ha.symm.trans he
    case h_2 he =>
      cases ha.symm.trans he
      split
      case h_1 h => exact (congrArg (readRest add s') h).symm
      case h_2 h => exact (congrArg (readRest add s') h).symm
      case h_3 h => exact (congrArg (readRest add s') h).symm
      case h_4 h1 h2 h3 =>
        generalize rest.drop k = us at h1 h2 h3
        unfold readRest
        split
        case h_1 => exact absurd rfl h1
        case h_2 j ts =>
          cases ts with
          | nil => exact absurd rfl (h2 j)
          | cons t ts => exact absurd rfl (h3 j t ts)
        case h_3 => rfl

theorem readRest_of_not_stops {ts : List Token} (h : ¬Stops ts) :
    readRest add s ts = .error (.missing ",") := by
  unfold readRest
  split
  case h_1 => exact absurd .atEnd h
  case h_2 => exact absurd (.comma ..) h
  case h_3 => rfl

variable (hG : V.Gathers gather add)
include hG

theorem readAll_setting (ha : V.Value a us) (hb : V.name a ∉ before.map V.name) (hs : Stops ts) :
    readAll add (gather before) (.word (V.name a) :: (us ++ ts)) =
      readRest add (gather (before ++ [a])) ts := by
  have hstart : ∀ rest, us ++ ts ≠ .mark ':' true :: rest := by
    intro rest
    cases us with
    | nil => cases hs <;> nofun
    | cons u us =>
      rintro ⟨⟩
      exact V.value_start ha us rfl
  have hadd : add (gather before) (some (V.name a)) (us ++ ts) =
      .ok (gather (before ++ [a]), us.length) := by
    rw [hG.new _ (V.name_mem a) hb, V.read_of_value ha hs]
    rfl
  rw [readAll_of_added (readName_word _ hstart) hadd, List.drop_left]

theorem readAll_fault (h : V.Fault before ts e) : readAll add (gather before) ts = .error e := by
  cases h with
  | unnamed hn => exact readAll_of_unnamed hn
  | unknown hn hu => exact readAll_of_refused hn (hG.unknown _ _ hu)
  | repeated hn hb => exact readAll_of_refused hn (hG.repeated _ hb)
  | value hn hv hb hr =>
    refine readAll_of_refused hn ?_
    rw [hG.new _ hv hb, hr]
    rfl
  | @unseparated n rest a k hn hv hb hr hs =>
    have hadd : add (gather before) (some n) rest = .ok (gather (before ++ [a]), k) := by
      rw [hG.new _ hv hb, hr]
      rfl
    rw [readAll_of_added hn hadd, readRest_of_not_stops hs]

-- Settings that are as they should be are gathered, and reading goes on behind them.
theorem readTokens_ended (h : V.Ended ts as) (hd : V.Distinct (before ++ as)) (us : List Token) :
    readTokens add (gather before) (ts ++ us) = readTokens add (gather (before ++ as)) us := by
  induction h generalizing before with
  | nil => rw [List.append_nil, List.nil_append]
  | @cons a vs ts as j ha _ ih =>
    rw [List.append_cons before a as] at hd ⊢
    have hb := (distinct_concat_iff.mp hd.of_append).right
    rw [List.cons_append, List.append_assoc]
    exact (readAll_setting hG ha hb (.comma ..)).trans (ih hd)

theorem readTokens_listed (h : V.Listed ts as) (hd : V.Distinct (before ++ as)) :
    readTokens add (gather before) ts = .ok (gather (before ++ as)) := by
  cases h with
  | closed h => simpa [readTokens] using readTokens_ended hG h hd []
  | @unclosed a us ts as h ha =>
    rw [← List.append_assoc] at hd ⊢
    have hb := (distinct_concat_iff.mp hd).right
    rw [readTokens_ended hG h hd.of_append]
    simpa [readTokens, readRest] using readAll_setting hG ha hb .atEnd

theorem readTokens_faultIn (h : V.FaultIn before ts e) :
    readTokens add (gather before) ts = .error e := by
  obtain ⟨h, hd, hne, hf⟩ := h
  rw [readTokens_ended hG h hd, readTokens, if_neg (by simpa using hne)]
  exact readAll_fault hG hf

end Read

/-! ## Attributes -/

-- What attributes set.
inductive Sets (V : Vocabulary α) : List Attribute → List α → Prop
  | nil : Sets V [] []
  | other {a : Attribute} {attributes : List Attribute} {as : List α} (ha : ¬a.isSchema)
      (h : Sets V attributes as) : Sets V (a :: attributes) as
  | schema {a : Attribute} {attributes : List Attribute} {ts : List Token} {as bs : List α}
      (ha : a.isSchema) (hb : a.body = .arguments ts) (hl : V.Listed ts as)
      (h : Sets V attributes bs) : Sets V (a :: attributes) (as ++ bs)

-- Attributes set what their settings say, each at most once in all of them together.
structure Accepts (V : Vocabulary α) (attributes : List Attribute) (as : List α) : Prop where
  sets     : V.Sets attributes as
  distinct : V.Distinct as

-- What is wrong with the first attribute that is not as it should be: its form or its settings.
inductive FirstFault (V : Vocabulary α) : List Attribute → DeriveError → Prop
  | form {earlier later : List Attribute} {a : Attribute} {as : List α} {e : DeriveError}
      (h : V.Accepts earlier as) (ha : a.isSchema) (hb : Attribute.arguments a.body = .error e) :
    FirstFault V (earlier ++ a :: later) e
  | settings {earlier later : List Attribute} {a : Attribute} {as : List α} {ts : List Token}
      {e : DeriveError} (h : V.Accepts earlier as) (ha : a.isSchema)
      (hb : a.body = .arguments ts) (hf : V.FaultIn as ts e) :
    FirstFault V (earlier ++ a :: later) e

section Attributes

variable {attributes attributes' : List Attribute} {bs : List α} {b : Attribute}

theorem Sets.append (h : V.Sets attributes as) (h' : V.Sets attributes' bs) :
    V.Sets (attributes ++ attributes') (as ++ bs) := by
  induction h with
  | nil => exact h'
  | other ha _ ih => exact .other ha ih
  | schema ha hb hl _ ih =>
    rw [List.append_assoc]
    exact .schema ha hb hl ih

theorem FirstFault.append (h : V.FirstFault attributes e) (attributes' : List Attribute) :
    V.FirstFault (attributes ++ attributes') e := by
  cases h with
  | form h ha hb =>
    rw [List.append_assoc]
    exact .form h ha hb
  | settings h ha hb hf =>
    rw [List.append_assoc]
    exact .settings h ha hb hf

theorem accepts_or_fault (V : Vocabulary α) (attributes : List Attribute) :
    (∃ as, V.Accepts attributes as) ∨ ∃ e, V.FirstFault attributes e := by
  induction attributes using List.reverseRecOn with
  | nil => exact .inl ⟨[], .nil, .nil⟩
  | append_singleton attributes a ih =>
    rcases ih with ⟨as, h⟩ | ⟨e, h⟩
    case inr => exact .inr ⟨e, h.append _⟩
    case inl =>
      by_cases ha : a.isSchema
      case neg =>
        refine .inl ⟨as, ?_, h.distinct⟩
        simpa using h.sets.append (.other ha .nil)
      case pos =>
        cases hb : Attribute.arguments a.body with
        | error e => exact .inr ⟨e, .form h ha hb⟩
        | ok ts =>
          have hb : a.body = .arguments ts := by
            cases hbody : a.body <;> rw [hbody] at hb <;> cases hb
            rfl
          rcases listed_or_fault h.distinct ts with ⟨bs, hl, hd⟩ | ⟨e, hf⟩
          · refine .inl ⟨as ++ bs, ?_, hd⟩
            simpa using h.sets.append (.schema ha hb hl .nil)
          · exact .inr ⟨e, .settings h ha hb hf⟩

variable {σ : Type} {gather : List α → σ}
variable {add : σ → Option String → List Token → Except DeriveError (σ × Nat)}

theorem ofAttributes_cons_other (s : σ) (hb : ¬b.isSchema) :
    ofAttributes add s (b :: attributes) = ofAttributes add s attributes := by
  rw [ofAttributes, List.filter_cons_of_neg hb]
  rfl

theorem ofAttributes_cons_schema (s : σ) (hb : b.isSchema) :
    ofAttributes add s (b :: attributes) =
      (Attribute.arguments b.body >>= readTokens add s) >>= (ofAttributes add · attributes) := by
  rw [ofAttributes, List.filter_cons_of_pos hb, List.foldlM_cons]
  rfl

theorem ofAttributes_append (s : σ) : ofAttributes add s (attributes ++ attributes') =
    ofAttributes add s attributes >>= (ofAttributes add · attributes') := by
  rw [ofAttributes, List.filter_append, List.foldlM_append]
  rfl

variable (hG : V.Gathers gather add)
include hG

theorem ofAttributes_sets (h : V.Sets attributes as) (hd : V.Distinct (before ++ as)) :
    ofAttributes add (gather before) attributes = .ok (gather (before ++ as)) := by
  induction h generalizing before with
  | nil => rw [List.append_nil]; rfl
  | other ha _ ih => exact (ofAttributes_cons_other _ ha).trans (ih hd)
  | schema ha hb hl _ ih =>
    rw [← List.append_assoc] at hd ⊢
    rw [ofAttributes_cons_schema _ ha, hb]
    show readTokens _ _ _ >>= _ = _
    rw [readTokens_listed hG hl hd.of_append]
    exact ih hd

theorem ofAttributes_accepts (h : V.Accepts attributes as) :
    ofAttributes add (gather []) attributes = .ok (gather as) :=
  ofAttributes_sets hG h.sets h.distinct

theorem ofAttributes_firstFault (h : V.FirstFault attributes e) :
    ofAttributes add (gather []) attributes = .error e := by
  cases h with
  | form h ha hb =>
    rw [ofAttributes_append, ofAttributes_accepts hG h]
    show ofAttributes add _ _ = _
    rw [ofAttributes_cons_schema _ ha, hb]
    rfl
  | settings h ha hb hf =>
    rw [ofAttributes_append, ofAttributes_accepts hG h]
    show ofAttributes add _ _ = _
    rw [ofAttributes_cons_schema _ ha, hb]
    show readTokens _ _ _ >>= _ = _
    rw [readTokens_faultIn hG hf]
    rfl

theorem ofAttributes_eq_ok_iff {s : σ} : ofAttributes add (gather []) attributes = .ok s ↔
    ∃ as, V.Accepts attributes as ∧ s = gather as := by
  constructor
  case mp =>
    intro hs
    rcases V.accepts_or_fault attributes with ⟨as, h⟩ | ⟨e, h⟩
    · exact ⟨as, h, Except.ok.inj (hs.symm.trans (ofAttributes_accepts hG h))⟩
    · nomatch hs.symm.trans (ofAttributes_firstFault hG h)
  case mpr =>
    rintro ⟨as, h, rfl⟩
    exact ofAttributes_accepts hG h

theorem ofAttributes_eq_error_iff : ofAttributes add (gather []) attributes = .error e ↔
    V.FirstFault attributes e := by
  refine ⟨fun hs => ?_, ofAttributes_firstFault hG⟩
  rcases V.accepts_or_fault attributes with ⟨as, h⟩ | ⟨e', h⟩
  · nomatch hs.symm.trans (ofAttributes_accepts hG h)
  · cases hs.symm.trans (ofAttributes_firstFault hG h)
    exact h

end Attributes
end Vocabulary
end TreeCodec.Derive.Setting
