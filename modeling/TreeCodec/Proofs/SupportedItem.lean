import TreeCodec.Derive.Declaration
import TreeCodec.Proofs.SettingVocabulary

/-!
Items that a schema can be derived for.

These are records with named fields, and enums of at least one variant whose variants wrap one value
each and have no settings. All parameters stand for types, and what the attributes of the item and
of its fields set is known and set once. Of any other item the first fault is reported: those of its
own settings come before those of its parameters, and these before those of its body, whose parts
are looked at from left to right.
-/
namespace TreeCodec.Derive

open Setting (Vocabulary)

/-! ## Supported items -/

structure Variant.Supported (v : Variant) : Prop where
  plain : ∀ a ∈ v.attributes, ¬a.isSchema
  wraps : ∃ t, v.payload = .unnamed [t]

def Field.Supported (f : Field) : Prop := ∃ as, FieldSetting.vocabulary.Accepts f.attributes as

-- The bodies of types with some settings.
inductive Body.Supported (settings : List TypeSetting) : Body → Prop
  | record {fields : List Field} (h : ∀ f ∈ fields, f.Supported) :
    Supported settings (.record fields)
  | enumeration {variants : List Variant} (hs : .positional ∉ settings) (hne : variants ≠ [])
      (h : ∀ v ∈ variants, v.Supported) : Supported settings (.enumeration variants)

-- An item with some settings that a schema can be derived for.
structure Item.Supported (item : Item) (settings : List TypeSetting) : Prop where
  attributes : TypeSetting.vocabulary.Accepts item.attributes settings
  parameters : ∀ p ∈ item.parameters.list, ∃ t, p = .type t
  body       : item.body.Supported settings

/-! ## Descriptions -/

-- A type that is only the name of a parameter. Of parameters of one name it is the first. The word
-- `_` is no name.
structure Names (parameters : List TypeParameter) (type : List Token) (i : Nat)
    (p : TypeParameter) : Prop where
  at_place : parameters[i]? = some p
  bare     : type = [.word p.name]
  named    : p.name ≠ "_"
  first    : ∀ q ∈ parameters.take i, q.name ≠ p.name

structure Member.Describes (parameters : List TypeParameter) (f : Field) (m : Member) : Prop where
  name      : m.name = f.name
  type      : m.type = f.type
  settings  : ∃ as, FieldSetting.vocabulary.Accepts f.attributes as ∧ m.settings.Says as
  parameter : ∀ i, m.parameter = some i ↔ ∃ p, Names parameters f.type i p

structure Alternative.Describes (v : Variant) (a : Alternative) : Prop where
  name : a.name = v.name
  type : v.payload = .unnamed [a.type]

inductive Shape.Describes (parameters : List TypeParameter) : Body → Shape → Prop
  | record {fields : List Field} {members : List Member}
      (h : List.Forall₂ (Member.Describes parameters) fields members) :
    Describes parameters (.record fields) (.record members)
  | union {variants : List Variant} {alternatives : List Alternative}
      (h : List.Forall₂ Alternative.Describes variants alternatives) :
    Describes parameters (.enumeration variants) (.union alternatives)

structure Declaration.Describes (item : Item) (d : Declaration) : Prop where
  name       : d.name = item.name
  settings   : ∃ as, TypeSetting.vocabulary.Accepts item.attributes as ∧ d.settings.Says as
  parameters : item.parameters = ⟨d.parameters.map .type, d.closed⟩
  predicates : d.predicates = item.predicates
  shape      : d.shape.Describes d.parameters item.body

/-! ## Violations -/

inductive Parameter.Fault : Parameter → DeriveError → Prop
  | lifetime : Fault .lifetime .lifetimeParameter
  | constant : Fault .constant .constantParameter

inductive Variant.Fault (v : Variant) : DeriveError → Prop
  | setting (h : ∃ a ∈ v.attributes, a.isSchema) : Fault v .variantSetting
  | payload (h : ∀ a ∈ v.attributes, ¬a.isSchema) (hp : ∀ t, v.payload ≠ .unnamed [t]) :
    Fault v .variantPayload

-- What is wrong with the body of a type with some settings.
inductive Body.Fault (settings : List TypeSetting) : Body → DeriveError → Prop
  | unnamed : Fault settings .unnamed .unnamedFields
  | unit : Fault settings .unit .unnamedFields
  | overlay : Fault settings .overlay .overlay
  | field {earlier later : List Field} {f : Field} {e : DeriveError}
      (h : ∀ g ∈ earlier, g.Supported) (hf : FieldSetting.vocabulary.FirstFault f.attributes e) :
    Fault settings (.record (earlier ++ f :: later)) e
  | positional {variants : List Variant} (hs : .positional ∈ settings) :
    Fault settings (.enumeration variants) .positionalUnion
  | empty (hs : .positional ∉ settings) : Fault settings (.enumeration []) .noVariants
  | variant {earlier later : List Variant} {v : Variant} {e : DeriveError}
      (hs : .positional ∉ settings) (h : ∀ w ∈ earlier, w.Supported) (hv : v.Fault e) :
    Fault settings (.enumeration (earlier ++ v :: later)) e

-- The first thing that is wrong with an item.
inductive Item.FirstFault (item : Item) : DeriveError → Prop
  | settings {e : DeriveError} (h : TypeSetting.vocabulary.FirstFault item.attributes e) :
    FirstFault item e
  | parameter {as : List TypeSetting} {earlier : List TypeParameter} {later : List Parameter}
      {p : Parameter} {e : DeriveError} (ha : TypeSetting.vocabulary.Accepts item.attributes as)
      (hp : item.parameters.list = earlier.map .type ++ p :: later) (h : p.Fault e) :
    FirstFault item e
  | body {as : List TypeSetting} {e : DeriveError}
      (ha : TypeSetting.vocabulary.Accepts item.attributes as)
      (hp : ∀ p ∈ item.parameters.list, ∃ t, p = .type t) (h : item.body.Fault as e) :
    FirstFault item e

/-! ## Parameters -/

section Parameters

variable {list : List Parameter} {ps : List TypeParameter} {e : DeriveError}

theorem typeParameters_eq_ok_iff : typeParameters list = .ok ps ↔ list = ps.map .type := by
  induction list generalizing ps with
  | nil => cases ps <;> simp [typeParameters]
  | cons p list ih =>
    cases p with
    | lifetime => cases ps <;> simp [typeParameters]
    | constant => cases ps <;> simp [typeParameters]
    | type p =>
      simp only [typeParameters, map_eq_ok_iff, ih]
      cases ps <;> simp [and_comm]

theorem exists_typeParameters_iff :
    (∃ ps, typeParameters list = .ok ps) ↔ ∀ p ∈ list, ∃ t, p = .type t := by
  simp only [typeParameters_eq_ok_iff]
  constructor
  · rintro ⟨ps, rfl⟩ p hp
    obtain ⟨t, _, rfl⟩ := List.mem_map.mp hp
    exact ⟨t, rfl⟩
  · intro h
    have htypes : ∀ p ∈ list, ∃ t, Parameter.type t = p ∧ True := fun p hp =>
      (h p hp).imp fun _ ht => ⟨ht.symm, trivial⟩
    obtain ⟨ps, hps, _⟩ := exists_map htypes
    exact ⟨ps, hps.symm⟩

theorem typeParameters_eq_error_iff : typeParameters list = .error e ↔
    ∃ earlier p later, list = List.map .type earlier ++ p :: later ∧ Parameter.Fault p e := by
  constructor
  case mp =>
    intro h
    induction list with
    | nil => nomatch h
    | cons p list ih =>
      cases p with
      | lifetime =>
        cases h
        exact ⟨[], _, list, rfl, .lifetime⟩
      | constant =>
        cases h
        exact ⟨[], _, list, rfl, .constant⟩
      | type p =>
        unfold typeParameters at h
        cases hl : typeParameters list with
        | ok ps =>
          rw [hl] at h
          nomatch h
        | error e' =>
          rw [hl] at h
          cases h
          obtain ⟨earlier, q, later, rfl, hq⟩ := ih hl
          exact ⟨p :: earlier, q, later, rfl, hq⟩
  case mpr =>
    rintro ⟨earlier, p, later, rfl, hp⟩
    induction earlier with
    | nil => cases hp <;> rfl
    | cons q earlier ih =>
      rw [List.map_cons, List.cons_append, typeParameters, ih]
      rfl

theorem parameterIndex?_eq_some_iff {type : List Token} {i : Nat} :
    parameterIndex? ps type = some i ↔ ∃ p, Names ps type i p := by
  constructor
  case mp =>
    intro h
    unfold parameterIndex? at h
    split at h
    case h_1 name =>
      split at h
      case isTrue => nomatch h
      case isFalse hname =>
        obtain ⟨hi, hat, hfirst⟩ := List.findIdx?_eq_some_iff_getElem.mp h
        have hat : ps[i].name = name := of_decide_eq_true hat
        refine ⟨ps[i], List.getElem?_eq_getElem hi, by rw [hat], hat ▸ hname, fun q hq => ?_⟩
        obtain ⟨j, hj, rfl⟩ := List.mem_take_iff_getElem.mp hq
        rw [hat]
        exact fun he => hfirst j (by omega) (decide_eq_true he)
    case h_2 => nomatch h
  case mpr =>
    rintro ⟨p, hat, rfl, hname, hfirst⟩
    obtain ⟨hi, rfl⟩ := List.getElem?_eq_some_iff.mp hat
    refine (if_neg hname).trans <| List.findIdx?_eq_some_iff_getElem.mpr ⟨hi, by simp, ?_⟩
    intro j hj he
    exact hfirst ps[j] (List.mem_take_iff_getElem.mpr ⟨j, by omega, rfl⟩) (of_decide_eq_true he)

end Parameters

/-! ## Fields and variants -/

section Field

variable {f : Field} {ps : List TypeParameter} {m : Member} {e : DeriveError}

theorem Field.member_eq_ok_iff : f.member ps = .ok m ↔
    ∃ as, FieldSetting.vocabulary.Accepts f.attributes as ∧
      m = ⟨f.name, f.type, .gather as, parameterIndex? ps f.type⟩ := by
  have hsettings {s : FieldSettings} : FieldSettings.ofAttributes f.attributes = .ok s ↔
      ∃ as, FieldSetting.vocabulary.Accepts f.attributes as ∧ s = .gather as :=
    Vocabulary.ofAttributes_eq_ok_iff FieldSettings.gathers
  rw [Field.member, bind_eq_ok_iff]
  constructor
  · rintro ⟨s, hs, hm⟩
    obtain ⟨as, h, rfl⟩ := hsettings.mp hs
    exact ⟨as, h, (Except.ok.inj hm).symm⟩
  · rintro ⟨as, h, rfl⟩
    exact ⟨_, hsettings.mpr ⟨as, h, rfl⟩, rfl⟩

theorem Field.exists_member_iff (ps : List TypeParameter) :
    (∃ m, f.member ps = .ok m) ↔ f.Supported := by
  simp only [Field.member_eq_ok_iff]
  exact ⟨fun ⟨_, as, h, _⟩ => ⟨as, h⟩, fun ⟨as, h⟩ => ⟨_, as, h, rfl⟩⟩

theorem Field.member_eq_error_iff :
    f.member ps = .error e ↔ FieldSetting.vocabulary.FirstFault f.attributes e := by
  rw [Field.member, bind_eq_error_iff]
  refine (or_iff_left ?_).trans (Vocabulary.ofAttributes_eq_error_iff FieldSettings.gathers)
  rintro ⟨s, _, hpure⟩
  nomatch hpure

theorem Field.describes_of_member (h : f.member ps = .ok m) : m.Describes ps f := by
  obtain ⟨as, hs, rfl⟩ := Field.member_eq_ok_iff.mp h
  exact ⟨rfl, rfl, ⟨as, hs, FieldSettings.gather_says hs.distinct⟩,
    fun i => parameterIndex?_eq_some_iff⟩

end Field

namespace Variant

variable {v : Variant} {a : Alternative} {e : DeriveError}

theorem any_isSchema_iff : v.attributes.any Attribute.isSchema ↔ ∃ a ∈ v.attributes, a.isSchema :=
  List.any_eq_true

theorem alternative_eq_ok_iff :
    v.alternative = .ok a ↔ (∀ a ∈ v.attributes, ¬a.isSchema) ∧ a.Describes v := by
  unfold alternative
  split
  case isTrue h =>
    obtain ⟨b, hb, hschema⟩ := any_isSchema_iff.mp h
    exact iff_of_false nofun fun h => h.left b hb hschema
  case isFalse h =>
    have hplain : ∀ a ∈ v.attributes, ¬a.isSchema := fun a ha hschema =>
      h (any_isSchema_iff.mpr ⟨a, ha, hschema⟩)
    rw [and_iff_right hplain]
    split
    case h_1 t ht =>
      constructor
      · rintro ⟨⟩
        exact ⟨rfl, ht⟩
      · rintro ⟨hname, htype⟩
        cases ht.symm.trans htype
        rw [← hname]
    case h_2 hne => exact iff_of_false nofun fun h => hne _ h.type

theorem exists_alternative_iff : (∃ a, v.alternative = .ok a) ↔ v.Supported := by
  simp only [alternative_eq_ok_iff]
  constructor
  · rintro ⟨a, hplain, ha⟩
    exact ⟨hplain, a.type, ha.type⟩
  · rintro ⟨hplain, t, ht⟩
    exact ⟨⟨v.name, t⟩, hplain, rfl, ht⟩

theorem alternative_eq_error_iff : v.alternative = .error e ↔ v.Fault e := by
  unfold alternative
  split
  case isTrue h =>
    have hsetting := any_isSchema_iff.mp h
    constructor
    · rintro ⟨⟩
      exact .setting hsetting
    · intro hf
      cases hf with
      | setting => rfl
      | payload hplain =>
        obtain ⟨a, ha, hschema⟩ := hsetting
        exact absurd hschema (hplain a ha)
  case isFalse h =>
    have hsetting := (not_congr any_isSchema_iff).mp h
    split
    case h_1 t ht =>
      refine iff_of_false nofun fun hf => ?_
      cases hf with
      | setting hs => exact hsetting hs
      | payload _ hp => exact hp t ht
    case h_2 hne =>
      constructor
      · rintro ⟨⟩
        exact .payload (fun a ha hschema => hsetting ⟨a, ha, hschema⟩) hne
      · intro hf
        cases hf with
        | setting hs => exact absurd hs hsetting
        | payload => rfl

end Variant

/-! ## Bodies -/

namespace Body

variable {settings : TypeSettings} {as : List TypeSetting} {ps : List TypeParameter}
variable {body : Body} {shape : Shape} {e : DeriveError}

theorem shape_record (fields : List Field) : (Body.record fields).shape settings ps =
    (fields.mapM (Field.member ps)).map .record := by
  show (fields.mapM (Field.member ps) >>= fun members => _) = _
  cases fields.mapM (Field.member ps) <;> rfl

theorem shape_positional (hs : settings.positional) (variants : List Variant) :
    (enumeration variants).shape settings ps = .error .positionalUnion := by
  show (if settings.positional then _ else _) = _
  rw [if_pos hs]
  rfl

theorem shape_empty (hs : ¬settings.positional) :
    (enumeration []).shape settings ps = .error .noVariants := by
  show (if settings.positional then _ else _) = _
  rw [if_neg hs]
  rfl

theorem shape_enumeration (hs : ¬settings.positional) {variants : List Variant}
    (hne : variants ≠ []) : (enumeration variants).shape settings ps =
      (variants.mapM Variant.alternative).map .union := by
  obtain ⟨v, variants, rfl⟩ := List.exists_cons_of_ne_nil hne
  show (if settings.positional then _ else _) = _
  rw [if_neg hs]
  show ((v :: variants).mapM Variant.alternative >>= fun alternatives => _) = _
  cases (v :: variants).mapM Variant.alternative <;> rfl

theorem describes_of_shape (h : body.shape settings ps = .ok shape) : shape.Describes ps body := by
  cases body with
  | record fields =>
    rw [shape_record] at h
    obtain ⟨members, hm, rfl⟩ := map_eq_ok_iff.mp h
    exact .record <| (mapM_eq_ok_iff_forall₂.mp hm).imp fun _ _ => Field.describes_of_member
  | unnamed => nomatch h
  | unit => nomatch h
  | enumeration variants =>
    by_cases hs : settings.positional
    case pos => nomatch (shape_positional hs variants).symm.trans h
    case neg =>
      by_cases hne : variants = []
      case pos =>
        subst hne
        nomatch (shape_empty hs).symm.trans h
      case neg =>
        rw [shape_enumeration hs hne] at h
        obtain ⟨alternatives, ha, rfl⟩ := map_eq_ok_iff.mp h
        refine .union <| (mapM_eq_ok_iff_forall₂.mp ha).imp fun _ _ h => ?_
        exact (Variant.alternative_eq_ok_iff.mp h).right
  | overlay => nomatch h

section

variable (hs : settings.positional ↔ .positional ∈ as)
include hs

theorem exists_shape_iff (ps : List TypeParameter) :
    (∃ shape, body.shape settings ps = .ok shape) ↔ body.Supported as := by
  constructor
  case mp =>
    rintro ⟨shape, h⟩
    cases body with
    | record fields =>
      rw [shape_record] at h
      obtain ⟨members, hm, _⟩ := map_eq_ok_iff.mp h
      refine .record fun f hf => (Field.exists_member_iff ps).mp ?_
      exact exists_mapM_eq_ok_iff.mp ⟨members, hm⟩ f hf
    | unnamed => nomatch h
    | unit => nomatch h
    | enumeration variants =>
      by_cases hpositional : settings.positional
      case pos => nomatch (shape_positional hpositional variants).symm.trans h
      case neg =>
        by_cases hne : variants = []
        case pos =>
          subst hne
          nomatch (shape_empty hpositional).symm.trans h
        case neg =>
          rw [shape_enumeration hpositional hne] at h
          obtain ⟨alternatives, ha, _⟩ := map_eq_ok_iff.mp h
          refine .enumeration (hs.not.mp hpositional) hne fun v hv => ?_
          exact Variant.exists_alternative_iff.mp <|
            exists_mapM_eq_ok_iff.mp ⟨alternatives, ha⟩ v hv
    | overlay => nomatch h
  case mpr =>
    intro h
    cases h with
    | record h =>
      obtain ⟨members, hm⟩ := exists_mapM_eq_ok_iff.mpr fun f hf =>
        (Field.exists_member_iff ps).mpr (h f hf)
      exact ⟨.record members, by rw [shape_record, hm]; rfl⟩
    | enumeration hpositional hne h =>
      obtain ⟨alternatives, ha⟩ := exists_mapM_eq_ok_iff.mpr fun v hv =>
        Variant.exists_alternative_iff.mpr (h v hv)
      exact ⟨.union alternatives, by rw [shape_enumeration (hs.not.mpr hpositional) hne, ha]; rfl⟩

theorem shape_eq_error_iff : body.shape settings ps = .error e ↔ body.Fault as e := by
  constructor
  case mp =>
    intro h
    cases body with
    | record fields =>
      rw [shape_record, map_eq_error_iff] at h
      obtain ⟨earlier, f, later, rfl, hok, hf⟩ := mapM_eq_error_iff.mp h
      exact .field (fun g hg => (Field.exists_member_iff ps).mp (hok g hg)) <|
        Field.member_eq_error_iff.mp hf
    | unnamed =>
      cases h
      exact .unnamed
    | unit =>
      cases h
      exact .unit
    | enumeration variants =>
      by_cases hpositional : settings.positional
      case pos =>
        cases (shape_positional hpositional variants).symm.trans h
        exact .positional (hs.mp hpositional)
      case neg =>
        by_cases hne : variants = []
        case pos =>
          subst hne
          cases (shape_empty hpositional).symm.trans h
          exact .empty (hs.not.mp hpositional)
        case neg =>
          rw [shape_enumeration hpositional hne, map_eq_error_iff] at h
          obtain ⟨earlier, v, later, rfl, hok, hv⟩ := mapM_eq_error_iff.mp h
          exact .variant (hs.not.mp hpositional)
            (fun w hw => Variant.exists_alternative_iff.mp (hok w hw)) <|
            Variant.alternative_eq_error_iff.mp hv
    | overlay =>
      cases h
      exact .overlay
  case mpr =>
    intro h
    cases h with
    | unnamed | unit | overlay => rfl
    | field h hf =>
      rw [shape_record, map_eq_error_iff, mapM_eq_error_iff]
      exact ⟨_, _, _, rfl, fun g hg => (Field.exists_member_iff ps).mpr (h g hg),
        Field.member_eq_error_iff.mpr hf⟩
    | positional hpositional => exact shape_positional (hs.mpr hpositional) _
    | empty hpositional => exact shape_empty (hs.not.mpr hpositional)
    | variant hpositional h hv =>
      rw [shape_enumeration (hs.not.mpr hpositional) (by simp), map_eq_error_iff,
        mapM_eq_error_iff]
      exact ⟨_, _, _, rfl, fun w hw => Variant.exists_alternative_iff.mpr (h w hw),
        Variant.alternative_eq_error_iff.mpr hv⟩

end

end Body

/-! ## Items -/

namespace Item

variable {item : Item} {d : Declaration} {e : DeriveError} {as : List TypeSetting}

theorem settings_eq_ok_iff {s : TypeSettings} :
    TypeSettings.ofAttributes item.attributes = .ok s ↔
      ∃ as, TypeSetting.vocabulary.Accepts item.attributes as ∧ s = .gather as :=
  Vocabulary.ofAttributes_eq_ok_iff TypeSettings.gathers

theorem settings_eq_error_iff : TypeSettings.ofAttributes item.attributes = .error e ↔
    TypeSetting.vocabulary.FirstFault item.attributes e :=
  Vocabulary.ofAttributes_eq_error_iff TypeSettings.gathers

-- What a declaration is made of.
theorem declaration_eq_ok_iff : item.declaration = .ok d ↔
    ∃ as ps shape, TypeSetting.vocabulary.Accepts item.attributes as ∧
      item.parameters.list = List.map .type ps ∧
      item.body.shape (.gather as) ps = .ok shape ∧
      d = ⟨item.name, .gather as, ps, item.parameters.closed, item.predicates, shape⟩ := by
  simp only [declaration, bind_eq_ok_iff, settings_eq_ok_iff, typeParameters_eq_ok_iff]
  constructor
  · rintro ⟨_, ⟨as, ha, rfl⟩, ps, hp, shape, hs, hpure⟩
    exact ⟨as, ps, shape, ha, hp, hs, (Except.ok.inj hpure).symm⟩
  · rintro ⟨as, ps, shape, ha, hp, hs, rfl⟩
    exact ⟨_, ⟨as, ha, rfl⟩, ps, hp, shape, hs, rfl⟩

theorem exists_declaration_iff :
    (∃ d, item.declaration = .ok d) ↔ ∃ as, item.Supported as := by
  simp only [declaration_eq_ok_iff]
  constructor
  · rintro ⟨d, as, ps, shape, ha, hp, hs, _⟩
    have hpositional := (TypeSettings.gather_says ha.distinct).positional
    refine ⟨as, ha, ?_, (Body.exists_shape_iff hpositional ps).mp ⟨shape, hs⟩⟩
    exact exists_typeParameters_iff.mp ⟨ps, typeParameters_eq_ok_iff.mpr hp⟩
  · rintro ⟨as, ha, hp, hbody⟩
    have hpositional := (TypeSettings.gather_says ha.distinct).positional
    obtain ⟨ps, hps⟩ := exists_typeParameters_iff.mpr hp
    obtain ⟨shape, hs⟩ := (Body.exists_shape_iff hpositional ps).mpr hbody
    exact ⟨_, as, ps, shape, ha, typeParameters_eq_ok_iff.mp hps, hs, rfl⟩

theorem describes_of_declaration (h : item.declaration = .ok d) : d.Describes item := by
  obtain ⟨as, ps, shape, ha, hp, hs, rfl⟩ := declaration_eq_ok_iff.mp h
  exact {
    name       := rfl
    settings   := ⟨as, ha, TypeSettings.gather_says ha.distinct⟩
    parameters := by rw [← hp]
    predicates := rfl
    shape      := Body.describes_of_shape hs }

theorem declaration_eq_error_iff : item.declaration = .error e ↔ item.FirstFault e := by
  simp only [declaration, bind_eq_error_iff, settings_eq_ok_iff, settings_eq_error_iff,
    typeParameters_eq_ok_iff, typeParameters_eq_error_iff]
  constructor
  · rintro (h | ⟨_, ⟨as, ha, rfl⟩, ⟨earlier, p, later, hp, hf⟩ | ⟨ps, hp, hb | ⟨_, _, hpure⟩⟩⟩)
    · exact .settings h
    · exact .parameter ha hp hf
    · have hpositional := (TypeSettings.gather_says ha.distinct).positional
      refine .body ha ?_ ((Body.shape_eq_error_iff hpositional).mp hb)
      exact exists_typeParameters_iff.mp ⟨ps, typeParameters_eq_ok_iff.mpr hp⟩
    · nomatch hpure
  · intro h
    cases h with
    | settings h => exact .inl h
    | @parameter as earlier later p e ha hp hf =>
      exact .inr ⟨_, ⟨as, ha, rfl⟩, .inl ⟨earlier, p, later, hp, hf⟩⟩
    | @body as e ha hp hb =>
      have hpositional := (TypeSettings.gather_says ha.distinct).positional
      obtain ⟨ps, hps⟩ := exists_typeParameters_iff.mpr hp
      exact .inr ⟨_, ⟨as, ha, rfl⟩, .inr ⟨ps, typeParameters_eq_ok_iff.mp hps,
        .inl ((Body.shape_eq_error_iff hpositional).mpr hb)⟩⟩

-- A schema can be derived exactly for the supported items. It describes the item, and of any other
-- item the first fault is reported.
theorem declaration_exact (item : Item) :
    ((∃ d, item.declaration = .ok d) ↔ ∃ as, item.Supported as) ∧
    (∀ d, item.declaration = .ok d → d.Describes item) ∧
    ∀ e, item.declaration = .error e ↔ item.FirstFault e :=
  ⟨exists_declaration_iff, fun _ => describes_of_declaration, fun _ => declaration_eq_error_iff⟩

end Item
end TreeCodec.Derive
