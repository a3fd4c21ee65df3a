import Mathlib.Data.List.Induction
import Metamath.Proofs.Label

/-!
# Label tables and the definitions that made them

A label table is made by definitions, some of which are refused because their label is in use. The
table is compared with the sequence of all of them. It holds the definitions that were not refused,
in order, and the index beside the entries leads to their places.

A definition never moves another one. So a table that was kept from an earlier time is the beginning
of every later one, and both give the same answers about the labels that it knows. This is what a
proof check relies on, which looks up labels in the table of the time when it was given out.
-/

namespace Metamath

namespace LabelTable

variable {labels snapshot : LabelTable} {label : Symbol} {entry : Entry}
  {calls : List (Symbol × Entry)} {place : Nat}

/-! ### Laws of single tables -/

theorem insert?_eq_none_iff : labels.insert? label entry = none ↔ labels.contains label := by
  simp [insert?]

theorem position?_eq_none_iff : labels.position? label = none ↔ ¬ labels.contains label := by
  rw [position?, contains, Std.TreeMap.contains_eq_isSome_getElem?, Option.not_isSome_iff_eq_none]

theorem get?_of_not_contains (hcontains : ¬ labels.contains label) : labels.get? label = none := by
  rw [get?, position?_eq_none_iff.mpr hcontains]
  rfl

theorem before_of_not_contains (hcontains : ¬ labels.contains label) :
    labels.before label = labels.toList := by
  rw [before, position?_eq_none_iff.mpr hcontains]
  exact List.take_length

/-- The earlier table is the beginning of the later one, and both give the same answers about the
labels of the earlier one. -/
structure IsSnapshotOf (snapshot labels : LabelTable) : Prop where
  isPrefix : snapshot.toList <+: labels.toList
  position?_eq : ∀ label, snapshot.contains label →
    snapshot.position? label = labels.position? label
  get?_eq : ∀ label, snapshot.contains label → snapshot.get? label = labels.get? label

/-- All answers follow from the entries. -/
theorem isSnapshotOf_of_toList (hinitial : snapshot.toList <+: labels.toList) :
    snapshot.IsSnapshotOf labels := by
  obtain ⟨late, htable⟩ := hinitial
  have hposition : ∀ label, snapshot.contains label →
      snapshot.position? label = labels.position? label := by
    intro label hcontains
    obtain ⟨position, hposition⟩ := Option.ne_none_iff_exists'.mp
      (mt position?_eq_none_iff.mp (not_not_intro hcontains))
    obtain ⟨entry, hentry⟩ := position?_eq_some_iff.mp hposition
    obtain ⟨hbound, -⟩ := List.getElem?_eq_some_iff.mp hentry
    rw [hposition, eq_comm, position?_eq_some_iff, ← htable,
      List.getElem?_append_left hbound]
    exact ⟨entry, hentry⟩
  refine ⟨⟨late, htable⟩, hposition, fun label hcontains => ?_⟩
  obtain ⟨entry, hget⟩ := contains_iff.mp hcontains
  rw [hget, eq_comm, ← mem_toList_iff, ← htable]
  exact List.mem_append_left late (mem_toList_iff.mpr hget)

/-! ### Sequences of definitions -/

theorem ofList_concat (calls : List (Symbol × Entry)) (label : Symbol) (entry : Entry) :
    ofList (calls ++ [(label, entry)]) =
      ((ofList calls).insert? label entry).getD (ofList calls) :=
  List.foldl_concat ..

/-- One more definition is refused and changes nothing, or it is accepted. -/
theorem ofList_concat_cases (calls : List (Symbol × Entry)) (label : Symbol) (entry : Entry) :
    (ofList calls).contains label ∧ ofList (calls ++ [(label, entry)]) = ofList calls ∨
      ¬ (ofList calls).contains label ∧
        (ofList calls).insert? label entry = some (ofList (calls ++ [(label, entry)])) := by
  rw [ofList_concat]
  cases hinsert : (ofList calls).insert? label entry with
  | none => exact .inl ⟨insert?_eq_none_iff.mp hinsert, rfl⟩
  | some larger => exact .inr ⟨not_contains_of_insert? hinsert, rfl⟩

theorem contains_ofList : (ofList calls).contains label ↔ label ∈ calls.map Prod.fst := by
  induction calls using List.reverseRecOn with
  | nil => simp [ofList, empty, contains]
  | append_singleton calls call ih =>
    rw [List.map_append, List.mem_append, ← ih, List.map_singleton, List.mem_singleton]
    obtain ⟨hcontains, hsame⟩ | ⟨-, hinsert⟩ := ofList_concat_cases calls call.1 call.2
    · rw [hsame]
      refine ⟨.inl, ?_⟩
      rintro (hlabel | rfl)
      · exact hlabel
      · exact hcontains
    · rw [contains_of_insert? hinsert, or_comm]

theorem toList_ofList_prefix (calls later : List (Symbol × Entry)) :
    (ofList calls).toList <+: (ofList (calls ++ later)).toList := by
  induction later using List.reverseRecOn with
  | nil => simp
  | append_singleton later call ih =>
    rw [← List.append_assoc]
    obtain ⟨-, hsame⟩ | ⟨-, hinsert⟩ := ofList_concat_cases (calls ++ later) call.1 call.2
    · rwa [hsame]
    · refine ih.trans ?_
      rw [toList_of_insert? hinsert]
      exact List.prefix_append _ _

/-- The definition at this place of a sequence is the one that was accepted for its label. -/
def InsertedAt (calls : List (Symbol × Entry)) (place : Nat) (label : Symbol) (entry : Entry) :
    Prop :=
  calls[place]? = some (label, entry) ∧ ((ofList (calls.take place)).insert? label entry).isSome

/-- A definition is accepted if it is the first one of its label. -/
theorem insertedAt_iff :
    InsertedAt calls place label entry ↔
      calls[place]? = some (label, entry) ∧ label ∉ (calls.take place).map Prod.fst := by
  rw [InsertedAt, Option.isSome_iff_ne_none, Ne, insert?_eq_none_iff, contains_ofList]

theorem InsertedAt.not_contains (hinserted : InsertedAt calls place label entry) {count : Nat}
    (hcount : count ≤ place) : ¬ (ofList (calls.take count)).contains label := by
  obtain ⟨-, hfirst⟩ := insertedAt_iff.mp hinserted
  rw [contains_ofList]
  exact fun hmem => hfirst (List.map_subset _ (List.take_subset_take_left calls hcount) hmem)

theorem InsertedAt.contains (hinserted : InsertedAt calls place label entry) {count : Nat}
    (hcount : place < count) : (ofList (calls.take count)).contains label := by
  have hmem : (label, entry) ∈ calls.take count := by
    refine List.mem_of_getElem? (i := place) ?_
    rw [List.getElem?_take_of_lt hcount, hinserted.1]
  exact contains_ofList.mpr (List.mem_map_of_mem hmem)

/-- No label is accepted twice. -/
theorem InsertedAt.place_eq {other : Nat} {found : Entry}
    (hinserted : InsertedAt calls place label entry)
    (hother : InsertedAt calls other label found) : place = other := by
  rcases Nat.lt_trichotomy place other with hless | hequal | hless
  · exact absurd (hinserted.contains hless) (hother.not_contains (Nat.le_refl other))
  · exact hequal
  · exact absurd (hother.contains hless) (hinserted.not_contains (Nat.le_refl place))

/-- What was accepted up to some time is not changed by what comes later. -/
theorem insertedAt_take_iff {count : Nat} :
    InsertedAt (calls.take count) place label entry ↔
      place < count ∧ InsertedAt calls place label entry := by
  rw [InsertedAt, InsertedAt, List.getElem?_take, List.take_take]
  by_cases hcount : place < count
  · rw [if_pos hcount, Nat.min_eq_left (Nat.le_of_lt hcount)]
    exact (and_iff_right hcount).symm
  · simp [hcount]

theorem InsertedAt.append (hinserted : InsertedAt calls place label entry)
    (later : List (Symbol × Entry)) : InsertedAt (calls ++ later) place label entry := by
  have htake : (calls ++ later).take calls.length = calls := List.take_left
  rw [← htake] at hinserted
  exact (insertedAt_take_iff.mp hinserted).2

/-- The accepted definition stands behind all that were accepted before it. -/
theorem InsertedAt.exists_toList_eq (hinserted : InsertedAt calls place label entry) :
    ∃ late, (ofList calls).toList =
      (ofList (calls.take place)).toList ++ (label, entry) :: late := by
  obtain ⟨hbound, hentry⟩ := List.getElem?_eq_some_iff.mp hinserted.1
  have hcalls : calls.take place ++ [(label, entry)] ++ calls.drop (place + 1) = calls := by
    rw [← hentry, List.append_assoc, List.singleton_append, List.getElem_cons_drop,
      List.take_append_drop]
  obtain ⟨late, htable⟩ :=
    toList_ofList_prefix (calls.take place ++ [(label, entry)]) (calls.drop (place + 1))
  obtain ⟨hcontains, -⟩ | ⟨-, hinsert⟩ := ofList_concat_cases (calls.take place) label entry
  · exact absurd hcontains (hinserted.not_contains (Nat.le_refl place))
  · rw [hcalls, toList_of_insert? hinsert, List.append_assoc] at htable
    exact ⟨late, htable.symm⟩

theorem mem_toList_ofList :
    (label, entry) ∈ (ofList calls).toList ↔ ∃ place, InsertedAt calls place label entry := by
  constructor
  · induction calls using List.reverseRecOn with
    | nil => exact fun hmem => absurd hmem List.not_mem_nil
    | append_singleton calls call ih =>
      have hearlier : (label, entry) ∈ (ofList calls).toList →
          ∃ place, InsertedAt (calls ++ [call]) place label entry := by
        intro hmem
        obtain ⟨place, hinserted⟩ := ih hmem
        exact ⟨place, hinserted.append [call]⟩
      obtain ⟨-, hsame⟩ | ⟨hcontains, hinsert⟩ := ofList_concat_cases calls call.1 call.2
      · rwa [hsame]
      · rw [toList_of_insert? hinsert, List.mem_append, List.mem_singleton]
        rintro (hmem | hcall)
        · exact hearlier hmem
        · cases hcall
          refine ⟨calls.length, insertedAt_iff.mpr ⟨?_, ?_⟩⟩
          · exact List.getElem?_concat_length
          · rwa [List.take_left, ← contains_ofList]
  · rintro ⟨place, hinserted⟩
    obtain ⟨late, htable⟩ := hinserted.exists_toList_eq
    simp [htable]

theorem InsertedAt.before_eq (hinserted : InsertedAt calls place label entry) :
    (ofList calls).before label = (ofList (calls.take place)).toList := by
  obtain ⟨late, htable⟩ := hinserted.exists_toList_eq
  exact before_of_toList_eq htable

/-- No label has two entries, and the index leads to the entry of each label. Of all definitions of
a label exactly one was accepted, which is the one that is found under the label and behind those
that were accepted before it. A refused definition changes nothing. A table that was kept is a
snapshot of the later ones, and does not know the labels that were defined after it was kept. -/
theorem ofList_ordered_map (calls : List (Symbol × Entry)) :
    ((ofList calls).toList.map Prod.fst).Nodup ∧
    (∀ (label : Symbol) (position : Nat), (ofList calls).index[label]? = some position ↔
      ∃ entry, (ofList calls).entries[position]? = some (label, entry)) ∧
    (∀ label ∈ calls.map Prod.fst, ∃! place, ∃ entry, InsertedAt calls place label entry) ∧
    (∀ label entry, (ofList calls).get? label = some entry ↔
      ∃ place, InsertedAt calls place label entry) ∧
    (∀ place label entry, InsertedAt calls place label entry →
      (ofList calls).before label = (ofList (calls.take place)).toList ∧
      ∀ other found, (other, found) ∈ (ofList calls).before label ↔
        ∃ earlier < place, InsertedAt calls earlier other found) ∧
    (∀ label, ¬ (ofList calls).contains label →
      (ofList calls).before label = (ofList calls).toList) ∧
    (∀ label entry,
      ((ofList calls).insert? label entry = none ↔ label ∈ calls.map Prod.fst) ∧
      ((ofList calls).insert? label entry = none →
        ofList (calls ++ [(label, entry)]) = ofList calls)) ∧
    ∀ count, (ofList (calls.take count)).IsSnapshotOf (ofList calls) ∧
      ∀ place label entry, count ≤ place → InsertedAt calls place label entry →
        (ofList (calls.take count)).contains label = false ∧
        (ofList (calls.take count)).position? label = none ∧
        (ofList (calls.take count)).get? label = none := by
  have hget : ∀ label entry, (ofList calls).get? label = some entry ↔
      ∃ place, InsertedAt calls place label entry := by
    intro label entry
    rw [← mem_toList_iff, mem_toList_ofList]
  refine ⟨List.pairwise_map.mpr (pairwise_label_ne _), (ofList calls).faithful, ?_, hget, ?_, ?_,
    ?_, ?_⟩
  · intro label hlabel
    obtain ⟨entry, hentry⟩ := contains_iff.mp (contains_ofList.mpr hlabel)
    obtain ⟨place, hinserted⟩ := (hget label entry).mp hentry
    refine ⟨place, ⟨entry, hinserted⟩, ?_⟩
    rintro other ⟨found, hother⟩
    exact hother.place_eq hinserted
  · intro place label entry hinserted
    refine ⟨hinserted.before_eq, fun other found => ?_⟩
    rw [hinserted.before_eq, mem_toList_ofList]
    simp only [insertedAt_take_iff]
  · exact fun label => before_of_not_contains
  · intro label entry
    refine ⟨insert?_eq_none_iff.trans contains_ofList, fun hrefused => ?_⟩
    rw [ofList_concat, hrefused]
    rfl
  · intro count
    refine ⟨isSnapshotOf_of_toList ?_, ?_⟩
    · have hinitial := toList_ofList_prefix (calls.take count) (calls.drop count)
      rwa [List.take_append_drop] at hinitial
    · intro place label entry hcount hinserted
      have hcontains := hinserted.not_contains hcount
      exact ⟨eq_false_of_ne_true hcontains, position?_eq_none_iff.mpr hcontains,
        get?_of_not_contains hcontains⟩

/-- Four definitions, the third one of a label that is in use. -/
def repeatedLabel : List (Symbol × Entry) :=
  [("wph", .floating ["wff", "ph"]), ("wps", .floating ["wff", "ps"]),
    ("wph", .essential ["|-", "ps"]), ("wch", .floating ["wff", "ch"])]

theorem ofList_ordered_map_repeatedLabel :
    (∃! place, ∃ entry, InsertedAt repeatedLabel place "wph" entry) ∧
    (ofList repeatedLabel).get? "wph" = some (.floating ["wff", "ph"]) ∧
    (ofList repeatedLabel).before "wch" =
      [("wph", .floating ["wff", "ph"]), ("wps", .floating ["wff", "ps"])] ∧
    (ofList repeatedLabel).before "nope" = (ofList repeatedLabel).toList ∧
    ofList (repeatedLabel ++ [("wps", .essential ["|-", "ch"])]) = ofList repeatedLabel ∧
    (ofList (repeatedLabel.take 2)).position? "wps" = (ofList repeatedLabel).position? "wps" ∧
    (ofList (repeatedLabel.take 2)).get? "wch" = none := by
  obtain ⟨-, -, hunique, hget, hbefore, hall, hrefused, hkept⟩ := ofList_ordered_map repeatedLabel
  have hwph : InsertedAt repeatedLabel 0 "wph" (.floating ["wff", "ph"]) := ⟨rfl, by decide⟩
  have hwch : InsertedAt repeatedLabel 3 "wch" (.floating ["wff", "ch"]) := ⟨rfl, by decide⟩
  refine ⟨hunique "wph" (by decide), (hget _ _).mpr ⟨0, hwph⟩, (hbefore _ _ _ hwch).1,
    hall "nope" (by decide), (hrefused "wps" _).2 (by decide),
    (hkept 2).1.position?_eq "wps" (by decide), ?_⟩
  exact ((hkept 2).2 3 "wch" _ (by decide) hwch).2.2

end LabelTable

end Metamath
