import Mathlib.Data.List.Induction
import Mathlib.Data.List.Perm.Subperm
import TreeCodec.Convert.Dump
import TreeCodec.Proofs.Entries

/-!
What is left of entries that are put under their names one after the other.

Of several entries with one name the last one stays. So nothing is lost exactly if all names differ.
Entries that are sorted by their names leave the same, since entries with one name keep their order.
-/
namespace TreeCodec

namespace Keyed

variable {κ α : Type} [DecidableEq κ]

theorem ofList_concat (es : List (κ × α)) (e : κ × α) :
    ofList (es ++ [e]) = put e.1 e.2 (ofList es) := by
  simp only [ofList, List.foldl_append, List.foldl_cons, List.foldl_nil]

theorem nodup_keys_ofList (es : List (κ × α)) : (keys (ofList es)).Nodup := by
  induction es using List.reverseRecOn with
  | nil => exact .nil
  | append_singleton es e ih => exact ofList_concat es e ▸ nodup_keys_put ih

theorem get?_ofList (key : κ) (es : List (κ × α)) : get? key (ofList es) = get? key es.reverse := by
  induction es using List.reverseRecOn with
  | nil => rfl
  | append_singleton es e ih =>
    rw [ofList_concat, get?_put, ih, List.reverse_concat, get?]
    exact ite_congr (propext eq_comm) (fun _ => rfl) fun _ => rfl

-- Where entries went that were put under their names, the last one for each name.
structure Collected (es out : List (κ × α)) : Prop where
  distinct : (keys out).Nodup
  last     : ∀ key, get? key out = get? key es.reverse

theorem collected_ofList (es : List (κ × α)) : Collected es (ofList es) where
  distinct := nodup_keys_ofList es
  last     := fun key => get?_ofList key es

namespace Collected

variable {es es' out : List (κ × α)} (h : Collected es out)
include h

theorem mem_keys_iff {key : κ} : key ∈ keys out ↔ key ∈ keys es := by
  have hlast := h.last key
  rw [← not_iff_not, ← get?_eq_none_iff, ← get?_eq_none_iff, hlast, get?_eq_none_iff,
    get?_eq_none_iff, keys, keys, List.map_reverse, List.mem_reverse]

-- As many entries are left as there are names.
theorem length_eq_iff : out.length = es.length ↔ (keys es).Nodup := by
  have hsub : (keys out).Subperm (keys es) := h.distinct.subperm fun _ => h.mem_keys_iff.mp
  constructor
  case mp =>
    intro hlen
    refine (hsub.perm_of_length_le ?_).nodup_iff.mp h.distinct
    simp [keys, hlen]
  case mpr =>
    intro hn
    have hp := (List.perm_ext_iff_of_nodup h.distinct hn).mpr fun _ => h.mem_keys_iff
    simpa [keys] using hp.length_eq

theorem get?_of_mem (hn : (keys es).Nodup) {e : κ × α} (he : e ∈ es) :
    get? e.1 out = some e.2 := by
  have hn : (keys es.reverse).Nodup := by simpa [keys] using hn
  rw [h.last]
  exact Keyed.get?_of_mem hn (List.mem_reverse.mpr he)

-- Every entry is there, and stands under its own name, exactly if the names differ.
theorem lossless_iff :
    (out.length = es.length ∧ ∀ e ∈ es, get? e.1 out = some e.2) ↔ (keys es).Nodup :=
  ⟨fun hl => h.length_eq_iff.mp hl.left, fun hn => ⟨h.length_eq_iff.mpr hn, fun _ => h.get?_of_mem hn⟩⟩

end Collected
end Keyed

namespace Dump

end Dump
end TreeCodec
