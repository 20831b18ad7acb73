import Franklin.Fs.Lemmas.Exact

/-!
This module contains how paths are cut into components.
-/

namespace Franklin
namespace Fs

theorem head_skipSlashes (name : Name) : (skipSlashes name).head? ≠ some '/' := by
  unfold skipSlashes
  induction name with
  | nil => simp
  | cons a name ih =>
    rw [List.dropWhile_cons]
    split
    . apply ih
    . next ha =>
      simp only [decide_eq_true_eq] at ha
      simpa using ha

theorem takeWhile_append_drop (name : Name)
    : name.take (compLen name) = name.takeWhile (· ≠ '/') := by
  unfold compLen
  rw [← List.prefix_iff_eq_take.mp (List.takeWhile_prefix _)]

theorem dotdot_prefix_takeWhile (name : Name)
    : ['.', '.'] <+: name.takeWhile (· ≠ '/') ↔ ['.', '.'] <+: name := by
  constructor
  . intro h
    apply h.trans (List.takeWhile_prefix _)
  . intro h
    rcases h with ⟨rest, rfl⟩
    exact ⟨rest.takeWhile (· ≠ '/'), by simp⟩

theorem drop_compLen (name : Name) : name.drop (compLen name) = name.dropWhile (· ≠ '/') := by
  have h := List.takeWhile_append_dropWhile (p := (· ≠ '/')) (l := name)
  unfold compLen
  nth_rewrite 2 [← h]
  rw [List.drop_left]

theorem strncmp_dotdot (name : Name) : strncmp name ['.', '.'] 2 = 0 ↔ ['.', '.'] <+: name := by
  apply strncmp_append_eq_zero_iff name ['.', '.'] []

theorem find_takeWhile (name : Name) (entries : List RamDentry)
    : ramfs_lookup.find name (compLen name) entries =
        entries.find? fun entry => name.takeWhile (· ≠ '/') <+: entry.name := by
  have hsplit := List.takeWhile_append_dropWhile (p := (· ≠ '/')) (l := name)
  nth_rewrite 1 [← hsplit]
  apply find_eq

theorem length_next_lt {name : Name} (hne : name ≠ []) (hhead : name.head? ≠ some '/')
    : (skipSlashes (name.drop (compLen name))).length < name.length := by
  have hpos : 0 < compLen name := by
    cases name with
    | nil => exact absurd rfl hne
    | cons a name =>
      have ha : a ≠ '/' := by
        simpa using hhead
      simp [compLen, ha]
  have hskip : (skipSlashes (name.drop (compLen name))).length ≤ (name.drop (compLen name)).length :=
    (List.dropWhile_suffix _).length_le
  have hlen : 0 < name.length := List.length_pos_iff.mpr hne
  rw [List.length_drop] at hskip
  omega

end Fs
end Franklin
