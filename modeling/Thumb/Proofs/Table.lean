import Mathlib
import Thumb.Table

namespace Thumb.Table

variable {κ α β : Type} [Ord κ] [Std.LawfulEqOrd κ]

theorem get?_eq_some_iff (t : Table κ α) {key : κ} {value : α} :
    t.get? key = some value ↔ (key, value) ∈ t.entries := by
  obtain ⟨entries, hasc⟩ := t
  simp only [get?]
  induction entries with
  | nil => simp
  | cons entry rest ih =>
    obtain ⟨k₀, v₀⟩ := entry
    obtain ⟨hfirst, hrest⟩ := List.pairwise_cons.mp hasc
    by_cases hk : compare key k₀ = .eq
    · cases Std.LawfulEqCmp.eq_of_compare hk
      have hnot : (key, value) ∉ rest := by
        intro hmem
        have hlt := hfirst _ hmem
        rw [hk] at hlt
        cases hlt
      simp [hnot, eq_comm]
    · have hne : key ≠ k₀ := by
        rintro rfl
        exact hk Std.compare_self
      simpa [hk, hne] using ih hrest

theorem get?_filterKeys (t : Table κ α) (p : κ → Bool) (key : κ) :
    (t.filterKeys p).get? key = if p key then t.get? key else none := by
  apply Option.ext
  intro value
  rw [get?_eq_some_iff, filterKeys, List.mem_filter]
  cases hp : p key with
  | true => simp [get?_eq_some_iff, hp]
  | false => simp [hp]

omit [Std.LawfulEqOrd κ] in
theorem contains_iff (t : Table κ α) {key : κ} :
    t.contains key = true ↔ ∃ value, t.get? key = some value := by
  rw [contains, Option.isSome_iff_exists]

theorem mem_keys_iff (t : Table κ α) {key : κ} : key ∈ t.keys ↔ t.contains key = true := by
  simp [contains_iff, keys, get?_eq_some_iff]

theorem keys_ne (t : Table κ α) : t.entries.Pairwise fun a b => a.1 ≠ b.1 := by
  refine t.ascending.imp ?_
  intro a b hlt heq
  rw [heq, Std.compare_self] at hlt
  cases hlt

theorem nodup_keys (t : Table κ α) : t.keys.Nodup :=
  List.pairwise_map.mpr t.keys_ne

variable [Std.TransOrd κ]

theorem get?_insert (t : Table κ α) (key k : κ) (value : α) :
    (t.insert key value).get? k = if compare k key = .eq then some value else t.get? k := by
  obtain ⟨entries, hasc⟩ := t
  simp only [get?, insert]
  clear hasc
  induction entries with
  | nil => by_cases hk : compare k key = .eq <;> simp [insertInto, hk]
  | cons entry rest ih =>
    obtain ⟨k₀, v₀⟩ := entry
    unfold insertInto
    split
    case h_1 => by_cases hk : compare k key = .eq <;> simp [hk]
    case h_2 heq =>
      cases Std.LawfulEqCmp.eq_of_compare heq
      by_cases hk : compare k key = .eq <;> simp [hk]
    case h_3 hgt =>
      by_cases hk₀ : compare k k₀ = .eq
      · have hk : compare k key ≠ .eq := by
          intro hk
          cases Std.LawfulEqCmp.eq_of_compare hk
          rw [hk₀] at hgt
          cases hgt
        simp [hk₀, hk]
      · simpa [hk₀] using ih

theorem contains_insert (t : Table κ α) (key k : κ) (value : α) :
    (t.insert key value).contains k = true ↔ k = key ∨ t.contains k = true := by
  rw [contains, get?_insert]
  by_cases hk : k = key
  · simp [hk]
  · simp [hk, contains]

theorem get?_foldl_insert {entries : List (κ × α)} (h : entries.Pairwise fun a b => a.1 ≠ b.1)
    (t : Table κ α) {key : κ} {value : α} :
    (entries.foldl (fun t (key, value) => t.insert key value) t).get? key = some value ↔
      (key, value) ∈ entries ∨ (∀ v, (key, v) ∉ entries) ∧ t.get? key = some value := by
  induction entries generalizing t with
  | nil => simp
  | cons entry rest ih =>
    obtain ⟨k₀, v₀⟩ := entry
    obtain ⟨hfirst, hrest⟩ := List.pairwise_cons.mp h
    rw [List.foldl_cons, ih hrest, get?_insert]
    by_cases hk : key = k₀
    · subst hk
      have hnot : ∀ v, (key, v) ∉ rest := fun v hmem => hfirst _ hmem rfl
      simp [hnot, eq_comm]
    · simp [hk]

theorem get?_ofList {entries : List (κ × α)} (h : entries.Pairwise fun a b => a.1 ≠ b.1) {key : κ}
    {value : α} : (ofList entries).get? key = some value ↔ (key, value) ∈ entries := by
  rw [ofList, get?_foldl_insert h]
  simp [get?, empty]

theorem exists_get?_ofList {entries : List (κ × α)} {key : κ} {value : α}
    (h : (key, value) ∈ entries) :
    ∃ v, (ofList entries).get? key = some v := by
  induction entries using List.reverseRecOn with
  | nil => cases h
  | append_singleton entries entry ih =>
    have hinsert : ofList (entries ++ [entry]) = (ofList entries).insert entry.1 entry.2 :=
      List.foldl_append
    rw [hinsert, get?_insert]
    split
    case isTrue => exact ⟨entry.2, rfl⟩
    case isFalse hne =>
      rcases List.mem_append.mp h with hmem | hmem
      · exact ih hmem
      · cases List.mem_singleton.mp hmem
        exact absurd Std.compare_self hne

/-- Of several entries with one key, the last stays. -/
theorem get?_ofList_last {entries : List (κ × α)} {key : κ} {value : α} :
    (ofList entries).get? key = some value ↔
      ∃ n : Nat, entries[n]? = some (key, value) ∧
        ∀ (n' : Nat) v, entries[n']? = some (key, v) → n' ≤ n := by
  induction entries using List.reverseRecOn with
  | nil => simp [ofList, get?, empty]
  | append_singleton entries entry ih =>
    obtain ⟨k, v⟩ := entry
    have hinsert : ofList (entries ++ [(k, v)]) = (ofList entries).insert k v := List.foldl_append
    rw [hinsert, get?_insert]
    by_cases hk : key = k
    · subst hk
      have hlast : (entries ++ [(key, v)])[entries.length]? = some (key, v) :=
        List.getElem?_concat_length
      have hle {n : Nat} {v' : α} (h : (entries ++ [(key, v)])[n]? = some (key, v')) :
          n ≤ entries.length := by
        have hlt := (List.getElem?_eq_some_iff.mp h).1
        rw [List.length_append] at hlt
        exact Nat.le_of_lt_succ hlt
      rw [if_pos Std.compare_self]
      constructor
      · intro h
        cases h
        exact ⟨entries.length, hlast, fun _ _ => hle⟩
      · intro h
        obtain ⟨n, hn, hmax⟩ := h
        rw [Nat.le_antisymm (hle hn) (hmax _ _ hlast), hlast] at hn
        cases hn
        rfl
    · have hkept (n : Nat) (v' : α) :
          (entries ++ [(k, v)])[n]? = some (key, v') ↔ entries[n]? = some (key, v') := by
        rw [List.getElem?_append]
        split
        · rfl
        case isFalse hn =>
          rw [List.getElem?_eq_none (Nat.le_of_not_lt hn)]
          constructor
          · intro h
            cases List.mem_singleton.mp (List.mem_of_getElem? h)
            exact absurd rfl hk
          · intro h
            cases h
      rw [if_neg (mt Std.LawfulEqCmp.eq_of_compare hk), ih]
      simp only [hkept]

theorem ext_get? {t t' : Table κ α}
    (h : ∀ key value, t.get? key = some value ↔ t'.get? key = some value) : t = t' := by
  have hmem : ∀ entry, entry ∈ t.entries ↔ entry ∈ t'.entries := by
    rintro ⟨key, value⟩
    rw [← get?_eq_some_iff, ← get?_eq_some_iff]
    exact h key value
  have hnodup (t : Table κ α) : t.entries.Nodup := t.nodup_keys.of_map
  have hperm := (List.perm_ext_iff_of_nodup (hnodup t) (hnodup t')).mpr hmem
  have hentries : t.entries = t'.entries := by
    refine hperm.eq_of_pairwise ?_ t.ascending t'.ascending
    intro a b _ _ hlt hgt
    rw [Std.OrientedCmp.gt_iff_lt.mpr hgt] at hlt
    cases hlt
  obtain ⟨entries, _⟩ := t
  cases hentries
  rfl

def filterMap (t : Table κ α) (f : α → Option β) : Table κ β :=
  .ofList (t.entries.filterMap fun (key, value) => (f value).map (key, ·))

theorem get?_filterMap (t : Table κ α) (f : α → Option β) (key : κ) :
    (t.filterMap f).get? key = (t.get? key).bind f := by
  have hne : (t.entries.filterMap fun (key, value) => (f value).map (key, ·)).Pairwise
      fun a b => a.1 ≠ b.1 := by
    rw [List.pairwise_filterMap]
    refine t.keys_ne.imp ?_
    rintro ⟨k, a⟩ ⟨k', a'⟩ hk b hb b' hb'
    obtain ⟨_, _, rfl⟩ := Option.map_eq_some_iff.mp hb
    obtain ⟨_, _, rfl⟩ := Option.map_eq_some_iff.mp hb'
    exact hk
  apply Option.ext
  intro value
  rw [filterMap, get?_ofList hne, List.mem_filterMap, Option.bind_eq_some_iff]
  simp only [get?_eq_some_iff, Option.map_eq_some_iff, Prod.exists, Prod.mk.injEq]
  constructor
  · rintro ⟨_, a, hmem, _, hf, rfl, rfl⟩
    exact ⟨a, hmem, hf⟩
  · rintro ⟨a, hmem, hf⟩
    exact ⟨key, a, hmem, value, hf, rfl, rfl⟩

end Thumb.Table
