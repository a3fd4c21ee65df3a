import Metamath.Label
import Metamath.Proofs.Step

/-!
# Laws of label tables

Since the index of a label table leads to its entries, the table is an ordered map: looking up a
label and searching the entries for it give the same answer, and a definition changes the answer for
the new label only.
-/

namespace Metamath

namespace LabelTable

variable {labels larger : LabelTable} {label : Symbol} {entry : Entry}

/-- A definition adds one entry, under a label that was not in use. -/
theorem insert?_adds (hinsert : labels.insert? label entry = some larger) :
    ¬ labels.contains label ∧ larger.entries = labels.entries.push (label, entry) ∧
      larger.index = labels.index.insert label labels.size := by
  rw [insert?] at hinsert
  split at hinsert
  · cases hinsert
  · next hnew =>
    cases hinsert
    exact ⟨hnew, rfl, rfl⟩

theorem not_contains_of_insert? (hinsert : labels.insert? label entry = some larger) :
    ¬ labels.contains label :=
  (insert?_adds hinsert).1

theorem toList_of_insert? (hinsert : labels.insert? label entry = some larger) :
    larger.toList = labels.toList ++ [(label, entry)] := by
  simp [toList, (insert?_adds hinsert).2.1]

theorem contains_of_insert? (hinsert : labels.insert? label entry = some larger) {other : Symbol} :
    larger.contains other ↔ other = label ∨ labels.contains other := by
  rw [contains, contains, (insert?_adds hinsert).2.2, Std.TreeMap.contains_insert,
    Bool.or_eq_true, beq_iff_eq, Std.LawfulEqOrd.compare_eq_iff_eq, eq_comm]

/-- The index leads to the entries as they are listed. -/
theorem position?_eq_some_iff {position : Nat} :
    labels.position? label = some position ↔
      ∃ entry, labels.toList[position]? = some (label, entry) := by
  simp only [toList, Array.getElem?_toList]
  exact labels.faithful label position

/-- A label has one position only, so no two entries have the same label. -/
theorem pairwise_label_ne (labels : LabelTable) :
    labels.toList.Pairwise fun first second => first.1 ≠ second.1 := by
  rw [List.pairwise_iff_getElem]
  intro i j hi hj hless hequal
  have hindex : ∀ (position : Nat) (hbound : position < labels.toList.length),
      labels.position? labels.toList[position].1 = some position := fun position hbound =>
    position?_eq_some_iff.mpr ⟨labels.toList[position].2, List.getElem?_eq_getElem hbound⟩
  have hpositions := (hindex i hi).symm.trans (hequal ▸ hindex j hj)
  exact Nat.ne_of_lt hless (Option.some.inj hpositions)

theorem before_of_toList_eq {early late : List (Symbol × Entry)}
    (htable : labels.toList = early ++ (label, entry) :: late) : labels.before label = early := by
  have hposition : labels.position? label = some early.length := by
    refine position?_eq_some_iff.mpr ⟨entry, ?_⟩
    rw [htable, List.getElem?_append_right (Nat.le_refl _), Nat.sub_self]
    rfl
  rw [before, hposition, htable]
  exact List.take_left

/-- The entries of a table are what its labels refer to. -/
theorem mem_toList_iff : (label, entry) ∈ labels.toList ↔ labels.get? label = some entry := by
  rw [toList, Array.mem_toList_iff, Array.mem_iff_getElem?, get?, position?]
  refine ⟨?_, ?_⟩
  · rintro ⟨position, hposition⟩
    rw [(labels.faithful label position).mpr ⟨entry, hposition⟩, Option.bind_some, hposition]
    rfl
  · intro hget
    obtain ⟨position, hindex, hentry⟩ := Option.bind_eq_some_iff.mp hget
    obtain ⟨found, hfound⟩ := (labels.faithful label position).mp hindex
    rw [hfound, Option.map_some] at hentry
    cases hentry
    exact ⟨position, hfound⟩

theorem contains_iff : labels.contains label ↔ ∃ entry, labels.get? label = some entry := by
  rw [contains, Std.TreeMap.contains_eq_isSome_getElem?, Option.isSome_iff_exists]
  refine ⟨?_, ?_⟩
  · rintro ⟨position, hindex⟩
    obtain ⟨entry, hentry⟩ := (labels.faithful label position).mp hindex
    have hmem : (label, entry) ∈ labels.toList := by
      simpa [toList] using Array.mem_of_getElem? hentry
    exact ⟨entry, mem_toList_iff.mp hmem⟩
  · rintro ⟨entry, hget⟩
    obtain ⟨position, hindex, -⟩ := Option.bind_eq_some_iff.mp hget
    exact ⟨position, hindex⟩

/-- A definition is found under its label and changes nothing else. -/
theorem get?_of_insert? (hinsert : labels.insert? label entry = some larger) (other : Symbol) :
    larger.get? other = if other = label then some entry else labels.get? other := by
  have hmem : ∀ found, larger.get? other = some found ↔
      (other = label ∧ found = entry) ∨ labels.get? other = some found := by
    intro found
    rw [← mem_toList_iff, ← mem_toList_iff, toList_of_insert? hinsert]
    simp [or_comm]
  by_cases hother : other = label
  · rw [if_pos hother, hmem]
    exact .inl ⟨hother, rfl⟩
  · rw [if_neg hother]
    apply Option.ext
    intro found
    rw [hmem]
    simp [hother]

/-- A label keeps what it refers to. -/
theorem get?_mono (hinsert : labels.insert? label entry = some larger) {other : Symbol}
    {found : Entry} (hget : labels.get? other = some found) : larger.get? other = some found := by
  have hother : other ≠ label := by
    rintro rfl
    exact not_contains_of_insert? hinsert (contains_iff.mpr ⟨found, hget⟩)
  rw [get?_of_insert? hinsert, if_neg hother, hget]

/-- All assertions that the labels of a table refer to are well-formed. -/
def WellFormed (labels : LabelTable) : Prop :=
  ∀ label assertion,
    labels.get? label = some (.axiomatic assertion) ∨
      labels.get? label = some (.provable assertion) →
    assertion.WellFormed

/-- It suffices to look at the entries. -/
theorem wellFormed_of_forall_mem
    (hentries : ∀ entry ∈ labels.toList, ∀ assertion ∈ entry.2.assertion?, assertion.WellFormed) :
    labels.WellFormed := by
  rintro label assertion (hget | hget)
  · exact hentries _ (mem_toList_iff.mpr hget) assertion rfl
  · exact hentries _ (mem_toList_iff.mpr hget) assertion rfl

/-- The table that results from defining labels one after another. A label that is defined already
keeps its entry. -/
def ofList (entries : List (Symbol × Entry)) : LabelTable :=
  entries.foldl (fun labels entry => (labels.insert? entry.1 entry.2).getD labels) empty

end LabelTable

end Metamath
