import TreeCodec.Proofs.WrittenSettings

/-!
The settings of types and of fields.

A type may have the path that is given for it, which does not start at the root, and may be
positional. A field may have a name of its own and a default. What is set tells exactly which
settings were written.
-/
namespace TreeCodec.Derive

namespace Setting

variable {l : Literal} {value : String} {text : Text} {j : Bool} {ts : List Token}

theorem assigned_text (h : l.kind = .text value) :
    assigned (.mark '=' j :: .literal l :: ts) = .ok ⟨l, value⟩ := by
  simp [assigned, h]

theorem exists_of_assigned (h : assigned ts = .ok text) :
    ∃ j rest, ts = .mark '=' j :: .literal text.literal :: rest ∧
      text.literal.kind = .text text.value := by
  unfold assigned at h
  split at h
  case h_1 j l rest =>
    split at h
    case h_1 value hk =>
      cases h
      exact ⟨j, rest, rfl, hk⟩
    case h_2 => nomatch h
  case h_2 => nomatch h
  case h_3 => nomatch h

end Setting

open Setting

/-! ## Types -/

inductive TypeSetting where
  | typePath (path : Path)
  | positional

namespace TypeSetting

def name : TypeSetting → String
  | typePath _ => "type_path"
  | positional => "positional"

def names : List String := ["type_path", "positional"]

-- A path is written as the text that it is read from.
inductive Value : TypeSetting → List Token → Prop
  | typePath {path : Path} {l : Literal} {value : String} (j : Bool) (hl : l.kind = .text value)
      (hp : Text.path ⟨l, value⟩ = .ok path) (hr : path.rooted = false) :
    Value (.typePath path) [.mark '=' j, .literal l]
  | positional : Value .positional []

def read (n : String) (ts : List Token) : Except DeriveError (TypeSetting × Nat) :=
  if n = "type_path" then do
    let text ← assigned ts
    let path ← text.path
    if path.rooted then .error .rootedTypePath else .ok (.typePath path, 2)
  else .ok (.positional, 0)

theorem read_of_value {a : TypeSetting} {us ts : List Token} (h : a.Value us) :
    read a.name (us ++ ts) = .ok (a, us.length) := by
  cases h with
  | typePath j hl hp hr =>
    simp [read, name, assigned_text hl, bind, Except.bind, hp, hr]
  | positional => rfl

theorem value_of_read {n : String} {ts : List Token} {a : TypeSetting} {k : Nat}
    (hn : n ∈ names) (h : read n ts = .ok (a, k)) :
    a.name = n ∧ a.Value (ts.take k) := by
  unfold read at h
  split at h
  case isTrue hname =>
    obtain ⟨text, htext, hpath⟩ := bind_eq_ok_iff.mp h
    obtain ⟨path, hp, hrooted⟩ := bind_eq_ok_iff.mp hpath
    obtain ⟨j, rest, rfl, hl⟩ := exists_of_assigned htext
    split at hrooted
    case isTrue => nomatch hrooted
    case isFalse hr =>
      cases hrooted
      exact ⟨hname.symm, .typePath j hl hp (Bool.eq_false_iff.mpr hr)⟩
  case isFalse hname =>
    cases h
    refine ⟨?_, .positional⟩
    have : n = "positional" := by simpa [names, hname] using hn
    exact this.symm

def vocabulary : Vocabulary TypeSetting where
  names   := names
  name    := name
  Value   := Value
  read    := read
  unknown := .unknownTypeSetting
  name_mem      := fun a => by cases a <;> simp [name, names]
  value_start   := fun h => by cases h <;> nofun
  read_of_value := fun h _ => read_of_value h
  value_of_read := value_of_read

end TypeSetting

namespace TypeSettings

def gather (as : List TypeSetting) : TypeSettings :=
  as.foldl (fun s a =>
    match a with
    | .typePath path => { s with typePath := some path }
    | .positional => { s with positional := true }) {}

theorem gather_concat (as : List TypeSetting) (a : TypeSetting) : gather (as ++ [a]) =
    match a with
    | .typePath path => { gather as with typePath := some path }
    | .positional => { gather as with positional := true } := by
  rw [gather, List.foldl_concat]
  rfl

variable {as : List TypeSetting}

theorem isSome_typePath_gather :
    (gather as).typePath.isSome ↔ "type_path" ∈ as.map TypeSetting.name := by
  induction as using List.reverseRecOn with
  | nil => simp [gather]
  | append_singleton as a ih => cases a <;> simp [gather_concat, ih, TypeSetting.name]

theorem positional_gather : (gather as).positional ↔ "positional" ∈ as.map TypeSetting.name := by
  induction as using List.reverseRecOn with
  | nil => simp [gather]
  | append_singleton as a ih => cases a <;> simp [gather_concat, ih, TypeSetting.name]

theorem add_unknown (s : TypeSettings) {n : Option String} (ts : List Token)
    (h : ∀ name ∈ TypeSetting.names, n ≠ some name) : s.add n ts = .error .unknownTypeSetting := by
  unfold add
  split
  case h_1 => exact absurd rfl (h "type_path" (by decide))
  case h_2 => exact absurd rfl (h "positional" (by decide))
  case h_3 => rfl

theorem add_repeated {n : String} (ts : List Token) (h : n ∈ as.map TypeSetting.name) :
    (gather as).add (some n) ts = .error (.duplicate n) := by
  have ⟨a, _, ha⟩ := List.mem_map.mp h
  subst ha
  cases a with
  | typePath path =>
    show (if (gather as).typePath.isSome then _ else _) = _
    rw [if_pos (isSome_typePath_gather.mpr h)]
    rfl
  | positional =>
    show (if (gather as).positional then _ else _) = _
    rw [if_pos (positional_gather.mpr h)]
    rfl

theorem add_new {n : String} (ts : List Token) (hn : n ∈ TypeSetting.names)
    (h : n ∉ as.map TypeSetting.name) : (gather as).add (some n) ts =
      (TypeSetting.read n ts).map fun (a, k) => (gather (as ++ [a]), k) := by
  simp only [TypeSetting.names, List.mem_cons, List.not_mem_nil, or_false] at hn
  rcases hn with rfl | rfl
  · show (if (gather as).typePath.isSome then _ else _) = _
    rw [if_neg (isSome_typePath_gather.not.mpr h), TypeSetting.read, if_pos rfl]
    cases assigned ts with
    | error e => rfl
    | ok text =>
      show (text.path >>= fun path => _) = Except.map _ (text.path >>= fun path => _)
      cases text.path with
      | error e => rfl
      | ok path =>
        show (if path.rooted then _ else _) = Except.map _ (if path.rooted then _ else _)
        split
        case isTrue => rfl
        case isFalse =>
          simp only [Except.map, gather_concat]
          rfl
  · show (if (gather as).positional then _ else _) = _
    rw [if_neg (positional_gather.not.mpr h), TypeSetting.read, if_neg (by decide)]
    simp only [Except.map, gather_concat]
    rfl

theorem gathers : TypeSetting.vocabulary.Gathers gather add where
  unknown  := add_unknown
  repeated := add_repeated
  new      := add_new

-- What the settings of a type are, as they were written.
structure Says (s : TypeSettings) (as : List TypeSetting) : Prop where
  typePath   : ∀ path, s.typePath = some path ↔ .typePath path ∈ as
  positional : s.positional ↔ .positional ∈ as

theorem gather_says (hd : TypeSetting.vocabulary.Distinct as) : (gather as).Says as := by
  induction as using List.reverseRecOn with
  | nil => exact ⟨fun path => by simp [gather], by simp [gather]⟩
  | append_singleton as a ih =>
    obtain ⟨hd, hnew⟩ := Vocabulary.distinct_concat_iff.mp hd
    obtain ⟨hpath, hpositional⟩ := ih hd
    rw [gather_concat]
    cases a with
    | typePath path =>
      have hnone (q : Path) : .typePath q ∉ as := fun hm => hnew (List.mem_map.mpr ⟨_, hm, rfl⟩)
      constructor <;> simp [hpositional, hnone, eq_comm]
    | positional => constructor <;> simp [hpath]

end TypeSettings

/-! ## Fields -/

inductive FieldSetting where
  | rename (text : Text)
  | default (value : FieldDefault)

namespace FieldSetting

def name : FieldSetting → String
  | rename _ => "rename"
  | default _ => "default"

def names : List String := ["rename", "default"]

-- A default without a text is the one of the type of the field.
inductive Value : FieldSetting → List Token → Prop
  | rename {l : Literal} {value : String} (j : Bool) (hl : l.kind = .text value) :
    Value (.rename ⟨l, value⟩) [.mark '=' j, .literal l]
  | standard : Value (.default .standard) []
  | call {path : Path} {l : Literal} {value : String} (j : Bool) (hl : l.kind = .text value)
      (hp : Text.path ⟨l, value⟩ = .ok path) :
    Value (.default (.call path)) [.mark '=' j, .literal l]

def read (n : String) (ts : List Token) : Except DeriveError (FieldSetting × Nat) :=
  if n = "rename" then do
    let text ← assigned ts
    return (.rename text, 2)
  else
    match ts with
    | .mark '=' _ :: _ => do
      let text ← assigned ts
      let path ← text.path
      return (.default (.call path), 2)
    | _ => .ok (.default .standard, 0)

theorem read_of_value {a : FieldSetting} {us ts : List Token} (h : a.Value us) (hs : Stops ts) :
    read a.name (us ++ ts) = .ok (a, us.length) := by
  cases h with
  | rename j hl =>
    simp [read, name, assigned_text hl, bind, Except.bind, pure, Except.pure]
  | standard => cases hs <;> rfl
  | call j hl hp =>
    simp [read, name, assigned_text hl, bind, Except.bind, hp, pure, Except.pure]

theorem value_of_read {n : String} {ts : List Token} {a : FieldSetting} {k : Nat}
    (hn : n ∈ names) (h : read n ts = .ok (a, k)) : a.name = n ∧ a.Value (ts.take k) := by
  unfold read at h
  split at h
  case isTrue hname =>
    obtain ⟨text, htext, hresult⟩ := bind_eq_ok_iff.mp h
    obtain ⟨j, rest, rfl, hl⟩ := exists_of_assigned htext
    cases hresult
    exact ⟨hname.symm, .rename j hl⟩
  case isFalse hname =>
    have hdefault : "default" = n := by simpa [names, hname, eq_comm] using hn
    split at h
    case h_1 =>
      obtain ⟨text, htext, hpath⟩ := bind_eq_ok_iff.mp h
      obtain ⟨path, hp, hresult⟩ := bind_eq_ok_iff.mp hpath
      obtain ⟨j, rest, heq, hl⟩ := exists_of_assigned htext
      cases hresult
      rw [heq]
      exact ⟨hdefault, .call j hl hp⟩
    case h_2 =>
      cases h
      exact ⟨hdefault, .standard⟩

-- Without a text, a default is that of the type.
theorem read_standard {ts : List Token} (h : ∀ j rest, ts ≠ .mark '=' j :: rest) :
    read "default" ts = .ok (.default .standard, 0) := by
  unfold read
  rw [if_neg (by decide)]
  split
  case h_1 j rest => exact absurd rfl (h j rest)
  case h_2 => rfl

def vocabulary : Vocabulary FieldSetting where
  names   := names
  name    := name
  Value   := Value
  read    := read
  unknown := .unknownFieldSetting
  name_mem      := fun a => by cases a <;> simp [name, names]
  value_start   := fun h => by cases h <;> nofun
  read_of_value := read_of_value
  value_of_read := value_of_read

end FieldSetting

namespace FieldSettings

def gather (as : List FieldSetting) : FieldSettings :=
  as.foldl (fun s a =>
    match a with
    | .rename text => { s with rename := some text }
    | .default value => { s with default := some value }) {}

theorem gather_concat (as : List FieldSetting) (a : FieldSetting) : gather (as ++ [a]) =
    match a with
    | .rename text => { gather as with rename := some text }
    | .default value => { gather as with default := some value } := by
  rw [gather, List.foldl_concat]
  rfl

variable {as : List FieldSetting}

theorem isSome_rename_gather :
    (gather as).rename.isSome ↔ "rename" ∈ as.map FieldSetting.name := by
  induction as using List.reverseRecOn with
  | nil => simp [gather]
  | append_singleton as a ih => cases a <;> simp [gather_concat, ih, FieldSetting.name]

theorem isSome_default_gather :
    (gather as).default.isSome ↔ "default" ∈ as.map FieldSetting.name := by
  induction as using List.reverseRecOn with
  | nil => simp [gather]
  | append_singleton as a ih => cases a <;> simp [gather_concat, ih, FieldSetting.name]

theorem add_unknown (s : FieldSettings) {n : Option String} (ts : List Token)
    (h : ∀ name ∈ FieldSetting.names, n ≠ some name) :
    s.add n ts = .error .unknownFieldSetting := by
  unfold add
  split
  case h_1 => exact absurd rfl (h "rename" (by decide))
  case h_2 => exact absurd rfl (h "default" (by decide))
  case h_3 => rfl

theorem add_repeated {n : String} (ts : List Token) (h : n ∈ as.map FieldSetting.name) :
    (gather as).add (some n) ts = .error (.duplicate n) := by
  have ⟨a, _, ha⟩ := List.mem_map.mp h
  subst ha
  cases a with
  | rename text =>
    show (if (gather as).rename.isSome then _ else _) = _
    rw [if_pos (isSome_rename_gather.mpr h)]
    rfl
  | default value =>
    show (if (gather as).default.isSome then _ else _) = _
    rw [if_pos (isSome_default_gather.mpr h)]
    rfl

theorem add_new {n : String} (ts : List Token) (hn : n ∈ FieldSetting.names)
    (h : n ∉ as.map FieldSetting.name) : (gather as).add (some n) ts =
      (FieldSetting.read n ts).map fun (a, k) => (gather (as ++ [a]), k) := by
  simp only [FieldSetting.names, List.mem_cons, List.not_mem_nil, or_false] at hn
  rcases hn with rfl | rfl
  · show (if (gather as).rename.isSome then _ else _) = _
    unfold FieldSetting.read
    rw [if_neg (isSome_rename_gather.not.mpr h), if_pos rfl]
    cases assigned ts with
    | error e => rfl
    | ok text =>
      show Except.ok _ = Except.ok _
      simp only [gather_concat]
  · show (if (gather as).default.isSome then _ else _) = _
    rw [if_neg (isSome_default_gather.not.mpr h)]
    split
    case h_1 j rest =>
      rw [FieldSetting.read, if_neg (by decide)]
      cases assigned (.mark '=' j :: rest) with
      | error e => rfl
      | ok text =>
        show (text.path >>= fun path => _) = Except.map _ (text.path >>= fun path => _)
        cases text.path with
        | error e => rfl
        | ok path =>
          show Except.ok _ = Except.ok _
          simp only [gather_concat]
    case h_2 hnone =>
      rw [FieldSetting.read_standard hnone]
      show Except.ok _ = Except.ok _
      simp only [gather_concat]

theorem gathers : FieldSetting.vocabulary.Gathers gather add where
  unknown  := add_unknown
  repeated := add_repeated
  new      := add_new

-- What the settings of a field are, as they were written.
structure Says (s : FieldSettings) (as : List FieldSetting) : Prop where
  rename  : ∀ text, s.rename = some text ↔ .rename text ∈ as
  default : ∀ value, s.default = some value ↔ .default value ∈ as

theorem gather_says (hd : FieldSetting.vocabulary.Distinct as) : (gather as).Says as := by
  induction as using List.reverseRecOn with
  | nil => constructor <;> simp [gather]
  | append_singleton as a ih =>
    obtain ⟨hd, hnew⟩ := Vocabulary.distinct_concat_iff.mp hd
    obtain ⟨hrename, hdefault⟩ := ih hd
    rw [gather_concat]
    cases a with
    | rename text =>
      have hnone (t : Text) : .rename t ∉ as := fun hm => hnew (List.mem_map.mpr ⟨_, hm, rfl⟩)
      constructor <;> simp [hdefault, hnone, eq_comm]
    | default value =>
      have hnone (v : FieldDefault) : .default v ∉ as := fun hm =>
        hnew (List.mem_map.mpr ⟨_, hm, rfl⟩)
      constructor <;> simp [hrename, hnone, eq_comm]

end FieldSettings
end TreeCodec.Derive
