import Mathlib.Data.List.Basic
import TreeCodec.Text.Identifier

/-!
Identifier fragments as joined runs.

A fragment consists of the runs of ASCII letters and digits of a name, with one underscore between
every two. So it is never empty, its underscores stand alone and within it, and it is its own
fragment.
-/
namespace TreeCodec.Text

/-! ## Runs of letters and digits -/

-- The longest runs of letters and digits, in order. What stands before, between and after them has
-- none.
inductive Runs : List Char → List (List Char) → Prop
  | none {gap : List Char} (hg : ∀ c ∈ gap, ¬c.isAlphanum) : Runs gap []
  | more {gap run rest : List Char} {runs : List (List Char)} (hg : ∀ c ∈ gap, ¬c.isAlphanum)
      (hne : run ≠ []) (hr : ∀ c ∈ run, c.isAlphanum) (hh : ∀ c ∈ rest.head?, ¬c.isAlphanum)
      (h : Runs rest runs) : Runs (gap ++ run ++ rest) (run :: runs)

namespace Runs

variable {cs : List Char} {runs : List (List Char)}

theorem spaced {c : Char} (hc : ¬c.isAlphanum) (h : Runs cs runs) : Runs (c :: cs) runs := by
  cases h with
  | none hg => exact .none <| List.forall_mem_cons.mpr ⟨hc, hg⟩
  | more hg hne hr hh h =>
    rw [← List.cons_append, ← List.cons_append]
    exact .more (List.forall_mem_cons.mpr ⟨hc, hg⟩) hne hr hh h

-- A run with no gap before it.
theorem leading {rest : List Char} (run : List Char) (hne : run ≠ []) (hr : ∀ c ∈ run, c.isAlphanum)
    (hh : ∀ c ∈ rest.head?, ¬c.isAlphanum) (h : Runs rest runs) :
    Runs (run ++ rest) (run :: runs) := by
  show Runs ([] ++ run ++ rest) _
  exact .more nofun hne hr hh h

-- A letter or digit makes the first run longer, or is a run of its own before a gap.
theorem exists_extended {c : Char} (hc : c.isAlphanum) (h : Runs cs runs) :
    ∃ runs', Runs (c :: cs) runs' := by
  have hown {rest : List Char} {runs : List (List Char)} (hh : ∀ c ∈ rest.head?, ¬c.isAlphanum)
      (h : Runs rest runs) : Runs (c :: rest) ([c] :: runs) :=
    leading [c] nofun (by simpa using hc) hh h
  cases h with
  | none hg => exact ⟨_, hown (fun d hd => hg d (List.mem_of_head? hd)) (.none hg)⟩
  | @more gap run rest runs hg hne hr hh h =>
    cases gap with
    | nil =>
      have hr : ∀ d ∈ c :: run, d.isAlphanum := by simpa [hc] using hr
      exact ⟨_, leading (c :: run) nofun hr hh h⟩
    | cons d gap =>
      refine ⟨_, hown ?_ (.more hg hne hr hh h)⟩
      simpa using hg d (List.mem_cons_self ..)

theorem exists_runs (cs : List Char) : ∃ runs, Runs cs runs := by
  induction cs with
  | nil => exact ⟨[], .none nofun⟩
  | cons c cs ih =>
    obtain ⟨runs, h⟩ := ih
    by_cases hc : c.isAlphanum
    case pos => exact h.exists_extended hc
    case neg => exact ⟨runs, h.spaced hc⟩

-- Every run has a letter or digit and nothing else.
theorem forall_mem (h : Runs cs runs) : ∀ run ∈ runs, run ≠ [] ∧ ∀ c ∈ run, c.isAlphanum := by
  induction h with
  | none => nofun
  | more _ hne hr _ _ ih => exact List.forall_mem_cons.mpr ⟨⟨hne, hr⟩, ih⟩

end Runs

/-! ## One pass over a name -/

theorem isAlphanum_underscore : ¬ '_'.isAlphanum := by decide

theorem extendFragment_alphanum {c : Char} (hc : c.isAlphanum) (out : List Char) :
    extendFragment out c = c :: out :=
  if_pos hc

theorem foldl_run {run : List Char} (hr : ∀ c ∈ run, c.isAlphanum) (out : List Char) :
    run.foldl extendFragment out = run.reverse ++ out := by
  induction run generalizing out with
  | nil => rfl
  | cons c run ih =>
    rw [List.foldl_cons, extendFragment_alphanum (hr c (List.mem_cons_self ..)),
      ih (fun d hd => hr d (List.mem_cons_of_mem _ hd)), List.reverse_cons, List.append_assoc]
    rfl

section Gap

variable {gap : List Char} (hg : ∀ c ∈ gap, ¬c.isAlphanum)
include hg

-- What no character of a gap changes is not changed by the gap.
theorem foldl_gap_fixed {out : List Char} (hout : ∀ c : Char, ¬c.isAlphanum →
    extendFragment out c = out) : gap.foldl extendFragment out = out := by
  induction gap with
  | nil => rfl
  | cons c gap ih =>
    rw [List.foldl_cons, hout c (hg c (List.mem_cons_self ..))]
    exact ih fun d hd => hg d (List.mem_cons_of_mem _ hd)

-- A gap leaves nothing at the start of a name.
theorem foldl_gap_start : gap.foldl extendFragment [] = [] :=
  foldl_gap_fixed hg fun _ hc => if_neg hc

-- A gap after a letter or digit leaves one underscore.
theorem foldl_gap {out : List Char} {c : Char} (hne : gap ≠ []) (hc : c.isAlphanum) :
    gap.foldl extendFragment (c :: out) = '_' :: c :: out := by
  obtain ⟨d, gap, rfl⟩ := List.exists_cons_of_ne_nil hne
  have hextend : extendFragment (c :: out) d = '_' :: c :: out := by
    unfold extendFragment
    rw [if_neg (hg d (List.mem_cons_self ..))]
    split
    case h_1 heq => nomatch heq
    case h_2 heq =>
      cases heq
      exact absurd hc isAlphanum_underscore
    case h_3 => rfl
  rw [List.foldl_cons, hextend]
  refine foldl_gap_fixed (fun e he => hg e (List.mem_cons_of_mem _ he)) fun e he => ?_
  exact if_neg he

end Gap

theorem reverse_run {run : List Char} (hne : run ≠ []) (hr : ∀ c ∈ run, c.isAlphanum)
    (out : List Char) : ∃ c tail, run.reverse ++ out = c :: tail ∧ c.isAlphanum := by
  obtain ⟨c, tail, htail⟩ := List.exists_cons_of_ne_nil (List.reverse_ne_nil_iff.mpr hne)
  refine ⟨c, tail ++ out, by rw [htail, List.cons_append], hr c ?_⟩
  rw [← List.mem_reverse, htail]
  exact List.mem_cons_self ..

theorem dropWhile_alphanum {c : Char} (hc : c.isAlphanum) (out : List Char) :
    (c :: out).dropWhile (· = '_') = c :: out := by
  refine List.dropWhile_cons_of_neg fun h => ?_
  rw [of_decide_eq_true h] at hc
  exact isAlphanum_underscore hc

-- Runs with an underscore before each.
def following (runs : List (List Char)) : List Char := runs.flatMap ('_' :: ·)

theorem intercalate_cons (run : List Char) (runs : List (List Char)) :
    ['_'].intercalate (run :: runs) = run ++ following runs := by
  induction runs generalizing run with
  | nil => simp [following]
  | cons run' runs ih => rw [List.intercalate_cons_cons, ih, List.append_assoc]; rfl

-- The induction is on what stands behind a run. It starts with a gap.
theorem Runs.foldl_rest {rest run out : List Char} {runs : List (List Char)} (h : Runs rest runs)
    (hh : ∀ c ∈ rest.head?, ¬c.isAlphanum) (hne : run ≠ []) (hr : ∀ c ∈ run, c.isAlphanum) :
    (rest.foldl extendFragment (run.reverse ++ out)).dropWhile (· = '_') =
      (run ++ following runs).reverse ++ out := by
  induction h generalizing run out with
  | @none gap hg =>
    obtain ⟨c, tail, htail, hc⟩ := reverse_run hne hr out
    rw [following, List.flatMap_nil, List.append_nil, htail]
    by_cases hgap : gap = []
    case pos =>
      subst hgap
      exact dropWhile_alphanum hc tail
    case neg =>
      rw [foldl_gap hg hgap hc]
      exact (List.dropWhile_cons_of_pos (by simp)).trans (dropWhile_alphanum hc tail)
  | @more gap run' rest runs hg hne' hr' hh' _ ih =>
    have hgap : gap ≠ [] := by
      rintro rfl
      obtain ⟨d, run', rfl⟩ := List.exists_cons_of_ne_nil hne'
      exact hh d rfl (hr' d (List.mem_cons_self ..))
    have hmark : gap.foldl extendFragment (run.reverse ++ out) = '_' :: (run.reverse ++ out) := by
      obtain ⟨c, tail, htail, hc⟩ := reverse_run hne hr out
      rw [htail, foldl_gap hg hgap hc]
    rw [List.foldl_append, List.foldl_append, hmark, foldl_run hr', ih hh' hne' hr']
    simp [following]

theorem Runs.fragment_eq {cs : List Char} {runs : List (List Char)} (h : Runs cs runs) :
    fragment cs = ['_'].intercalate runs := by
  cases h with
  | none hg =>
    rw [fragment, foldl_gap_start hg]
    rfl
  | @more gap run rest runs hg hne hr hh h =>
    rw [fragment, List.foldl_append, List.foldl_append, foldl_gap_start hg, foldl_run hr,
      h.foldl_rest hh hne hr, List.append_nil, List.reverse_reverse, intercalate_cons]

/-! ## Fragments -/

-- Characters with underscores only between two letters or digits.
structure Clean (cs : List Char) : Prop where
  nonempty : cs ≠ []
  ascii    : ∀ c ∈ cs, c.isAlphanum ∨ c = '_'
  first    : cs.head? ≠ some '_'
  last     : cs.getLast? ≠ some '_'
  single   : ¬['_', '_'] <:+: cs

namespace Clean

variable {run cs : List Char} (hne : run ≠ []) (hr : ∀ c ∈ run, c.isAlphanum)

include hr in
theorem not_mem_run : '_' ∉ run :=
  fun hm => isAlphanum_underscore (hr '_' hm)

include hne hr

theorem of_run : Clean run where
  nonempty := hne
  ascii    := fun c hc => .inl (hr c hc)
  first    := fun h => not_mem_run hr (List.mem_of_head? h)
  last     := fun h => not_mem_run hr (List.mem_of_getLast? h)
  single   := fun h => not_mem_run hr (h.mem (List.mem_cons_self ..))

theorem joined (h : Clean cs) : Clean (run ++ '_' :: cs) where
  nonempty := by simp
  ascii    := by
    intro c hc
    rcases List.mem_append.mp hc with hc | hc
    · exact .inl (hr c hc)
    · exact (List.mem_cons.mp hc).elim .inr (h.ascii c)
  first    := by
    rw [List.head?_append_of_ne_nil _ hne]
    exact (Clean.of_run hne hr).first
  last     := by
    rw [List.getLast?_append_cons, List.getLast?_cons_of_ne_nil h.nonempty]
    exact h.last
  single   := by
    have hmem := not_mem_run hr
    rw [List.infix_append_iff, List.infix_cons_iff]
    -- Two underscores are within the run, behind it, or one of them ends it.
    rintro (hrun | (hstart | hrest) | ⟨l₁, l₂, he, hl₁, hl₂⟩)
    · exact (Clean.of_run hne hr).single hrun
    · obtain ⟨tail, ht⟩ := (List.cons_prefix_cons.mp hstart).right
      exact h.first (by rw [← ht]; rfl)
    · exact h.single hrest
    · cases l₁ with
      | nil =>
        obtain rfl : ['_', '_'] = l₂ := he
        obtain ⟨tail, ht⟩ := (List.cons_prefix_cons.mp hl₂).right
        exact h.first (by rw [← ht]; rfl)
      | cons c l₁ =>
        obtain rfl : '_' = c := (List.cons.inj he).left
        exact hmem (hl₁.mem (List.mem_cons_self ..))

end Clean

theorem clean_intercalate {runs : List (List Char)}
    (h : ∀ run ∈ runs, run ≠ [] ∧ ∀ c ∈ run, c.isAlphanum) (hne : runs ≠ []) :
    Clean (['_'].intercalate runs) := by
  induction runs with
  | nil => exact absurd rfl hne
  | cons run runs ih =>
    obtain ⟨⟨hrun, hr⟩, h⟩ := List.forall_mem_cons.mp h
    cases runs with
    | nil =>
      rw [List.intercalate_singleton]
      exact .of_run hrun hr
    | cons run' runs =>
      rw [List.intercalate_cons_cons, List.append_assoc]
      exact .joined hrun hr (ih h nofun)

-- Joined runs have these runs again.
theorem runs_intercalate {runs : List (List Char)}
    (h : ∀ run ∈ runs, run ≠ [] ∧ ∀ c ∈ run, c.isAlphanum) :
    Runs (['_'].intercalate runs) runs := by
  have hfollowing {runs : List (List Char)} : ∀ c ∈ (following runs).head?, ¬c.isAlphanum := by
    cases runs with
    | nil => nofun
    | cons => simp [following]
  induction runs with
  | nil => exact .none nofun
  | cons run runs ih =>
    obtain ⟨⟨hne, hr⟩, h⟩ := List.forall_mem_cons.mp h
    rw [intercalate_cons]
    refine .leading run hne hr hfollowing ?_
    cases runs with
    | nil => exact .none nofun
    | cons run' runs =>
      have := ih h
      rw [intercalate_cons] at this
      exact this.spaced isAlphanum_underscore

/-! ## Identifiers -/

-- The runs that an identifier is made of.
def parts (runs : List (List Char)) : List (List Char) :=
  if runs = [] then [anonymous.toList] else runs

section Parts

variable {runs : List (List Char)}

theorem parts_ne_nil (runs : List (List Char)) : parts runs ≠ [] := by
  unfold parts
  split
  case isTrue => nofun
  case isFalse h => exact h

theorem parts_parts (runs : List (List Char)) : parts (parts runs) = parts runs :=
  if_neg (parts_ne_nil runs)

theorem forall_mem_parts (h : ∀ run ∈ runs, run ≠ [] ∧ ∀ c ∈ run, c.isAlphanum) :
    ∀ run ∈ parts runs, run ≠ [] ∧ ∀ c ∈ run, c.isAlphanum := by
  unfold parts
  split
  case isTrue =>
    exact List.forall_mem_singleton.mpr ⟨by decide, List.all_eq_true.mp (by decide)⟩
  case isFalse => exact h

theorem toList_identifier {name : String} (h : Runs name.toList runs) :
    (identifier name).toList = ['_'].intercalate (parts runs) := by
  rw [identifier, h.fragment_eq, parts]
  by_cases hruns : runs = []
  case pos =>
    subst hruns
    rfl
  case neg =>
    have hne := (clean_intercalate h.forall_mem hruns).nonempty
    simp only [List.isEmpty_iff, hne, hruns, if_false, String.toList_ofList]

end Parts

-- An identifier is made of the runs of a name. It is clean, and stays as it is if it is made again.
theorem identifier_joins_runs (name : String) :
    (∃ runs, Runs name.toList runs) ∧
    (∀ runs, Runs name.toList runs →
      identifier name = if runs = [] then "anon" else "_".intercalate (runs.map String.ofList)) ∧
    Clean (identifier name).toList ∧
    identifier (identifier name) = identifier name := by
  refine ⟨Runs.exists_runs _, fun runs h => ?_, ?_⟩
  · apply String.toList_injective
    rw [toList_identifier h, parts]
    split
    case isTrue => rfl
    case isFalse => simp [String.toList_intercalate, Function.comp_def]
  · obtain ⟨runs, h⟩ := Runs.exists_runs name.toList
    have hparts := forall_mem_parts h.forall_mem
    have hlist := toList_identifier h
    refine ⟨hlist ▸ clean_intercalate hparts (parts_ne_nil runs), ?_⟩
    have hagain : Runs (identifier name).toList (parts runs) := hlist ▸ runs_intercalate hparts
    apply String.toList_injective
    rw [toList_identifier hagain, parts_parts, hlist]

example : identifier "Option<Box<Node>>" = "Option_Box_Node" ∧ identifier "(é)" = "anon" := by
  decide

end TreeCodec.Text
