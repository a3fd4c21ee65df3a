import Mathlib.Data.Nat.Find
import Metamath.Proofs.Arrival
import Metamath.Proofs.Pipeline

/-!
# Where labels are read

Words stand in many places of a database, but only between two statements does a word become a
label. The same word can be a symbol of a statement or a step of a proof, and after an error nothing
is read at all. So a place of a label is described by the tokens before it, which have to lead to
it.

A label that was read is not forgotten: it belongs to the statement that is being read, or its
statement is recorded. Conversely, a label that is recorded or belongs to the present statement was
read somewhere. This is how the labels in the table of a builder, and those of the checks that it
gives out, are traced back to their places in the input.
-/

namespace Metamath.Database

/-- The label of the statement that is being read, from its first token on. -/
def Phase.label? : Phase → Option Symbol
  | outer pending => pending
  | declaring _ _ => none
  | stating _ label _ => some label
  | proving label _ _ => some label

namespace Builder

variable {builder result : Builder} {phase next : Phase} {token : Token} {check : Option Check}

/-- What an accepted token does about labels: nothing, or it is a label, or it completes the
statement of a label. -/
theorem Accepts.label_cases (haccepts : builder.Accepts phase token check result next) :
    (result.labels = builder.labels ∧ next.label? = phase.label? ∧ check = none ∧
        ∀ label, ¬ (phase = .outer none ∧ token = .word label)) ∨
      (∃ label, phase = .outer none ∧ token = .word label ∧ ¬ startsWithDollar label ∧
        result.labels = builder.labels ∧ next.label? = some label ∧ check = none) ∨
      ∃ label entry, phase.label? = some label ∧ next.label? = none ∧
        builder.labels.insert? label entry = some result.labels ∧
        ∀ given ∈ check, given.label = label := by
  cases haccepts with
  | @label label hword hnew => exact .inr (.inl ⟨label, rfl, rfl, hword, rfl, rfl, rfl⟩)
  | enter => exact .inl ⟨rfl, rfl, rfl, by simp⟩
  | leave hdepth hpop => exact .inl ⟨rfl, rfl, rfl, by simp⟩
  | declaration kind => exact .inl ⟨rfl, rfl, rfl, by simp⟩
  | labelled kind label => exact .inl ⟨rfl, rfl, rfl, by simp⟩
  | declaringWord word => exact .inl ⟨rfl, rfl, rfl, by simp⟩
  | statingWord word => exact .inl ⟨rfl, rfl, rfl, by simp⟩
  | provingWord word => exact .inl ⟨rfl, rfl, rfl, by simp⟩
  | statement hchecked => exact .inl ⟨rfl, rfl, rfl, by simp⟩
  | declare hdeclare =>
    obtain rfl := congrArg Prod.fst hdeclare
    exact .inl ⟨rfl, rfl, rfl, by simp⟩
  | floating hadd =>
    obtain ⟨_, _, larger, -, hinsert, rfl⟩ := exists_of_addFloating hadd
    exact .inr (.inr ⟨_, _, rfl, rfl, hinsert, by simp⟩)
  | essential hadd =>
    obtain ⟨-, _, larger, -, hinsert, rfl⟩ := exists_of_addEssential hadd
    exact .inr (.inr ⟨_, _, rfl, rfl, hinsert, by simp⟩)
  | axiomatic hadd =>
    obtain ⟨-, larger, hinsert, rfl⟩ := exists_of_addAxiomatic hadd
    exact .inr (.inr ⟨_, _, rfl, rfl, hinsert, by simp⟩)
  | provable hadd =>
    obtain ⟨larger, hinsert, rfl, rfl⟩ := exists_of_addProvable hadd
    refine .inr (.inr ⟨_, _, rfl, rfl, hinsert, fun given hgiven => ?_⟩)
    obtain ⟨-, hcheck⟩ := Option.ite_none_right_eq_some.mp hgiven
    cases hcheck
    rfl

theorem Accepts.contains (haccepts : builder.Accepts phase token check result next)
    {label : Symbol} (hcontains : builder.labels.contains label) :
    result.labels.contains label := by
  rcases haccepts.label_cases with ⟨hlabels, -⟩ | ⟨_, -, -, -, hlabels, -⟩ |
    ⟨_, _, -, -, hinsert, -⟩
  · exact hlabels ▸ hcontains
  · exact hlabels ▸ hcontains
  · exact (LabelTable.contains_of_insert? hinsert).mpr (.inr hcontains)

/-- A check is given out when its theorem is recorded. -/
theorem Accepts.check_label {given : Check}
    (haccepts : builder.Accepts phase token (some given) result next) :
    ¬ builder.labels.contains given.label ∧ result.labels.contains given.label := by
  rcases haccepts.label_cases with ⟨-, -, hnone, -⟩ | ⟨_, -, -, -, -, -, hnone⟩ |
    ⟨_, _, -, -, hinsert, hgiven⟩
  · cases hnone
  · cases hnone
  · obtain rfl := hgiven given rfl
    exact ⟨LabelTable.not_contains_of_insert? hinsert,
      (LabelTable.contains_of_insert? hinsert).mpr (.inl rfl)⟩

end Builder

namespace Reading

variable {accept : Check → Except Error Unit} {reading next last : Reading} {token : Token}
  {given : Option Check} {tokens before earlier : List Token} {checks : List Check}
  {items rest after later : List (Except Inclusion.Error Token)} {label : Symbol}

/-- The label was read: its statement is recorded or being read. -/
def Noted (reading : Reading) (label : Symbol) : Prop :=
  reading.builder.labels.contains label ∨ reading.phase.label? = some label

/-- A label becomes known by being read, and it stays known. -/
theorem Passes.noted_iff (hpasses : reading.Passes accept token given next) :
    next.Noted label ↔
      reading.Noted label ∨ (reading.phase = .outer none ∧ token = .word label) := by
  rw [Noted, Noted]
  rcases hpasses.accepts.1.label_cases with ⟨hlabels, hphase, -, hother⟩ |
    ⟨found, hphase, rfl, -, hlabels, hnext, -⟩ | ⟨found, entry, hphase, hnext, hinsert, -⟩
  · rw [hlabels, hphase, iff_self_or]
    exact fun hlabel => absurd hlabel (hother label)
  · rw [hlabels, hnext, hphase]
    simp [Phase.label?]
  · rw [LabelTable.contains_of_insert? hinsert, hnext, hphase]
    have houter : reading.phase ≠ .outer none := by
      intro houter
      rw [houter] at hphase
      cases hphase
    simp only [houter, reduceCtorEq, Option.some.injEq, false_and, or_false]
    exact or_comm.trans (or_congr_right eq_comm)

/-- A place where the word `label` is read as a label, with nothing but accepted tokens before it.
The place is between two statements, no label is pending, and the reading has not stopped. Checks
are all accepted. -/
inductive LabelAt (label : Symbol) : Reading → List (Except Inclusion.Error Token) →
    List Token → List (Except Inclusion.Error Token) → Prop where
  | here {reading : Reading} {after : List (Except Inclusion.Error Token)}
      (hstopped : ¬ reading.builder.stopped) (hphase : reading.phase = .outer none)
      (hword : ¬ startsWithDollar label) :
      LabelAt label reading (.ok (.word label) :: after) [] after
  | later {reading next : Reading} {token : Token} {given : Option Check} {before : List Token}
      {items after : List (Except Inclusion.Error Token)} (hstopped : ¬ reading.builder.stopped)
      (hpasses : reading.Passes acceptAll token given next)
      (hplace : LabelAt label next items before after) :
      LabelAt label reading (.ok token :: items) (token :: before) after

/-- The first place where a label is read. -/
structure FirstAt (label : Symbol) (reading : Reading)
    (items : List (Except Inclusion.Error Token)) (before : List Token)
    (after : List (Except Inclusion.Error Token)) : Prop where
  place : LabelAt label reading items before after
  first : ∀ earlier later, LabelAt label reading items earlier later →
    before.length ≤ earlier.length

theorem LabelAt.split (hplace : LabelAt label reading items before after) :
    items = before.map .ok ++ .ok (.word label) :: after := by
  induction hplace with
  | here => rfl
  | later _ _ _ ih => rw [ih, List.map_cons, List.cons_append]

theorem LabelAt.label_eq {other : Symbol} (hplace : LabelAt label reading items before after)
    (hother : LabelAt other reading items earlier later)
    (hlength : earlier.length = before.length) : other = label := by
  have hsplit := hother.split.symm.trans hplace.split
  obtain ⟨-, hrest⟩ := List.append_inj hsplit (by rw [List.length_map, List.length_map, hlength])
  cases hrest
  rfl

theorem LabelAt.not_startsWithDollar (hplace : LabelAt label reading items before after) :
    ¬ startsWithDollar label := by
  induction hplace with
  | here _ _ hword => exact hword
  | later _ _ _ ih => exact ih

theorem LabelAt.append (hplace : LabelAt label reading items before after)
    (rest : List (Except Inclusion.Error Token)) :
    LabelAt label reading (items ++ rest) before (after ++ rest) := by
  induction hplace with
  | here hstopped hphase hword => exact .here hstopped hphase hword
  | later hstopped hpasses _ ih => exact .later hstopped hpasses ih

theorem LabelAt.exists_arrives (hplace : LabelAt label reading items before after) :
    ∃ checks current, Arrives acceptAll reading before checks current ∧
      current.phase = .outer none ∧ ¬ current.builder.stopped := by
  induction hplace with
  | @here reading after hstopped hphase => exact ⟨[], reading, .here, hphase, hstopped⟩
  | later hstopped hpasses _ ih =>
    obtain ⟨checks, current, harrives, houter, hgoing⟩ := ih
    exact ⟨_, current, .pass hstopped hpasses harrives, houter, hgoing⟩

theorem Arrives.labelAt {current : Reading}
    (harrives : Arrives acceptAll reading before checks current)
    (hphase : current.phase = .outer none) (hgoing : ¬ current.builder.stopped)
    (hword : ¬ startsWithDollar label) (after : List (Except Inclusion.Error Token)) :
    LabelAt label reading (before.map .ok ++ .ok (.word label) :: after) before after := by
  induction harrives with
  | here => exact .here hgoing hphase hword
  | pass hstopped hpasses _ ih => exact .later hstopped hpasses (ih hphase hgoing)

theorem LabelAt.exists_firstAt (hplace : LabelAt label reading items before after) :
    ∃ earlier later, FirstAt label reading items earlier later ∧
      earlier.length ≤ before.length := by
  classical
  have hexists : ∃ n earlier later, LabelAt label reading items earlier later ∧
      earlier.length = n := ⟨_, before, after, hplace, rfl⟩
  obtain ⟨earlier, later, hearlier, hlength⟩ := Nat.find_spec hexists
  refine ⟨earlier, later, ⟨hearlier, fun other others hother => ?_⟩, ?_⟩
  · rw [hlength]
    exact Nat.find_min' hexists ⟨other, others, hother, rfl⟩
  · rw [hlength]
    exact Nat.find_min' hexists ⟨before, after, hplace, rfl⟩

theorem Passes.next_eq {other : Reading} {found : Option Check}
    (hpasses : reading.Passes accept token given next)
    (hother : reading.Passes accept token found other) : next = other := by
  cases hpasses with
  | more hfeed =>
    cases hother with
    | more hfound => cases hfeed.symm.trans hfound; rfl
    | check hfound => cases hfeed.symm.trans hfound
  | check hfeed =>
    cases hother with
    | more hfound => cases hfeed.symm.trans hfound
    | check hfound => cases hfeed.symm.trans hfound; rfl

theorem Passes.not_startsWithDollar (hpasses : reading.Passes accept (.word label) given next)
    (hphase : reading.phase = .outer none) : ¬ startsWithDollar label := by
  rcases hpasses.accepts.1.label_cases with ⟨-, -, -, hother⟩ | ⟨found, -, hfound, hword, -⟩ |
    ⟨found, entry, hlabel, -⟩
  · exact absurd ⟨hphase, rfl⟩ (hother label)
  · cases hfound
    exact hword
  · rw [hphase] at hlabel
    cases hlabel

/-- Tokens lead to where a label is known if it was known before or is read on the way. -/
theorem Arrives.noted_iff (harrives : Arrives acceptAll reading tokens checks last)
    (rest : List (Except Inclusion.Error Token)) :
    last.Noted label ↔ reading.Noted label ∨ ∃ earlier later,
      LabelAt label reading (tokens.map .ok ++ rest) earlier later ∧
        earlier.length < tokens.length := by
  induction harrives with
  | here => simp
  | @pass reading next last token tokens given checks hstopped hpasses _ ih =>
    rw [ih, hpasses.noted_iff, or_assoc]
    refine or_congr_right ⟨?_, ?_⟩
    · rintro (⟨hphase, rfl⟩ | ⟨earlier, later, hplace, hlength⟩)
      · exact ⟨[], _, .here hstopped hphase (hpasses.not_startsWithDollar hphase),
          Nat.succ_pos _⟩
      · exact ⟨token :: earlier, later, .later hstopped hpasses hplace,
          Nat.succ_lt_succ hlength⟩
    · rintro ⟨earlier, later, hplace, hlength⟩
      cases hplace with
      | here _ hphase _ => exact .inl ⟨hphase, rfl⟩
      | later _ hother hplace =>
        obtain rfl := hpasses.next_eq hother
        exact .inr ⟨_, _, hplace, Nat.lt_of_succ_lt_succ hlength⟩

theorem not_noted_start_new (bounds : Bounds) : ¬ (start (.new bounds)).Noted label := by
  rintro (hcontains | hphase)
  · rw [start, Builder.new, LabelTable.contains, LabelTable.empty,
      Std.TreeMap.contains_emptyc] at hcontains
    cases hcontains
  · cases hphase

theorem Arrives.contains (harrives : Arrives accept reading tokens checks last)
    (hcontains : reading.builder.labels.contains label) :
    last.builder.labels.contains label := by
  induction harrives with
  | here => exact hcontains
  | pass _ hpasses _ ih => exact ih (hpasses.accepts.1.contains hcontains)

/-- The theorem of a check is recorded on the way. -/
theorem Arrives.contains_of_mem_checks (harrives : Arrives accept reading tokens checks last)
    {check : Check} (hmem : check ∈ checks) :
    ¬ reading.builder.labels.contains check.label ∧
      last.builder.labels.contains check.label := by
  induction harrives with
  | here => cases hmem
  | @pass reading next last token tokens given checks hstopped hpasses hrest ih =>
    have haccepts := hpasses.accepts.1
    rcases List.mem_append.mp hmem with hgiven | hlater
    · obtain rfl := Option.mem_toList.mp hgiven
      obtain ⟨hnew, hcontains⟩ := haccepts.check_label
      exact ⟨hnew, hrest.contains hcontains⟩
    · obtain ⟨hnew, hcontains⟩ := ih hlater
      exact ⟨fun hold => hnew (haccepts.contains hold), hcontains⟩

section

variable {current : Reading} (harrives : Arrives acceptAll reading before checks current)
include harrives

/-- A label is not known at the first place where it is read. -/
theorem FirstAt.not_noted (hfirst : FirstAt label reading items before after)
    (hnew : ¬ reading.Noted label) : ¬ current.Noted label := by
  rw [harrives.noted_iff (.ok (.word label) :: after), ← hfirst.place.split]
  rintro (hnoted | ⟨earlier, later, hplace, hlength⟩)
  · exact hnew hnoted
  · exact Nat.not_lt.mpr (hfirst.first earlier later hplace) hlength

/-- Conversely, a place where a label is read and not known is the first one. -/
theorem Arrives.firstAt (hphase : current.phase = .outer none)
    (hgoing : ¬ current.builder.stopped) (hword : ¬ startsWithDollar label)
    (hnew : ¬ current.builder.labels.contains label)
    (after : List (Except Inclusion.Error Token)) :
    FirstAt label reading (before.map .ok ++ .ok (.word label) :: after) before after := by
  refine ⟨harrives.labelAt hphase hgoing hword after, fun earlier later hplace => ?_⟩
  by_contra hlength
  have hnoted : current.Noted label := (harrives.noted_iff _).mpr
    (.inr ⟨earlier, later, hplace, Nat.not_le.mp hlength⟩)
  rcases hnoted with hcontains | hlabel
  · exact hnew hcontains
  · rw [hphase] at hlabel
    cases hlabel

end

theorem FirstAt.not_labelAt (hfirst : FirstAt label reading items before after)
    (earlier : List Token) (later : List (Except Inclusion.Error Token)) :
    ¬ LabelAt label reading (before.map .ok) earlier later := by
  intro hplace
  have hlength := congrArg List.length hplace.split
  rw [List.length_append, List.length_map, List.length_map, List.length_cons] at hlength
  have hitems := hplace.append (.ok (.word label) :: after)
  rw [← hfirst.place.split] at hitems
  have hle := hfirst.first earlier _ hitems
  omega

/-- A label that is not known after the first place of another one has its own place later. -/
theorem FirstAt.lt_length {current noted : Reading} {other : Symbol}
    (hfirst : FirstAt label reading items before after)
    (harrives : Arrives acceptAll reading before checks current)
    (hphase : current.phase = .outer none)
    (hpasses : current.Passes acceptAll token given noted)
    (hplace : LabelAt other reading items earlier later)
    (hnew : ¬ noted.builder.labels.contains other) (hne : other ≠ label) :
    before.length < earlier.length := by
  by_contra hlength
  rcases Nat.lt_or_eq_of_le (Nat.not_lt.mp hlength) with hless | hequal
  · -- no statement is open at the place, so what was read before it is recorded
    rw [hfirst.place.split] at hplace
    have hnoted : current.Noted other := (harrives.noted_iff _).mpr
      (.inr ⟨earlier, later, hplace, hless⟩)
    rcases hnoted with hcontains | hlabel
    · exact hnew (hpasses.accepts.1.contains hcontains)
    · rw [hphase] at hlabel
      cases hlabel
  · exact hne (hfirst.place.label_eq hplace hequal)

/-- The label of a check has been read on the way to it. -/
theorem Arrives.exists_firstAt {bounds : Bounds} {check : Check}
    (harrives : Arrives acceptAll (start (.new bounds)) tokens checks last)
    (hmem : check ∈ checks) (rest : List (Except Inclusion.Error Token)) :
    ∃ earlier later,
      FirstAt check.label (start (.new bounds)) (tokens.map .ok ++ rest) earlier later ∧
        earlier.length < tokens.length := by
  have hnoted : last.Noted check.label := .inl (harrives.contains_of_mem_checks hmem).2
  rcases (harrives.noted_iff rest).mp hnoted with hstart | ⟨earlier, later, hplace, hlength⟩
  · exact absurd hstart (not_noted_start_new bounds)
  · obtain ⟨first, others, hfirst, hle⟩ := hplace.exists_firstAt
    exact ⟨first, others, hfirst, Nat.lt_of_le_of_lt hle hlength⟩

/-- The first place of a label in what a new builder reads: the label is new there. -/
theorem FirstAt.exists_arrives {bounds : Bounds}
    (hfirst : FirstAt label (start (.new bounds)) items before after) :
    ∃ checks current, Arrives acceptAll (start (.new bounds)) before checks current ∧
      current.phase = .outer none ∧ ¬ current.builder.stopped ∧
      ¬ current.builder.labels.contains label := by
  obtain ⟨checks, current, harrives, hphase, hgoing⟩ := hfirst.place.exists_arrives
  refine ⟨checks, current, harrives, hphase, hgoing, fun hcontains => ?_⟩
  exact hfirst.not_noted harrives (not_noted_start_new bounds) (.inl hcontains)

theorem exists_arrives_of_feedAll (hunbounded : reading.builder.Unbounded)
    (hchecked : reading.Checked) (hfeed : reading.feedAll tokens = .ok last) :
    last.builder.Unbounded ∧ ∃ checks, Arrives acceptAll reading tokens checks last := by
  induction tokens generalizing reading with
  | nil =>
    cases hfeed
    exact ⟨hunbounded, [], .here⟩
  | cons token tokens ih =>
    rw [feedAll_cons] at hfeed
    obtain ⟨next, hnext, hrest⟩ := bind_eq_ok_iff.mp hfeed
    have hpasses : ∃ given, reading.Passes acceptAll token given next :=
      exists_passes_of_next (fun _ => rfl) hnext
    obtain ⟨given, hpasses⟩ := hpasses
    obtain ⟨hstep, hlater⟩ := hpasses.step hchecked
    obtain ⟨hlast, checks, harrives⟩ := ih (hunbounded.step hstep) hlater hrest
    exact ⟨hlast, _, .pass hunbounded.stopped hpasses harrives⟩

/-- Without a label to stop at, the first place of a label is found by reading the tokens before. -/
theorem firstAt_of_feedAll {start : Option Symbol}
    (hplace : ((Reading.start (.new ⟨start, none⟩)).feedAll before).toOption.any fun current =>
      decide (current.phase = .outer none) && !current.builder.labels.contains label)
    (hword : ¬ startsWithDollar label) (after : List (Except Inclusion.Error Token)) :
    FirstAt label (.start (.new ⟨start, none⟩)) (before.map .ok ++ .ok (.word label) :: after)
      before after := by
  obtain ⟨current, hfeed, hcurrent⟩ := exists_eq_ok_of_any hplace
  rw [Bool.and_eq_true, decide_eq_true_iff, Bool.not_eq_true'] at hcurrent
  have hunbounded : (Reading.start (.new ⟨start, none⟩)).builder.Unbounded :=
    ⟨rfl, Bool.false_ne_true⟩
  obtain ⟨hlast, checks, harrives⟩ :=
    exists_arrives_of_feedAll hunbounded (checked_start _) hfeed
  exact harrives.firstAt hcurrent.1 hlast.stopped hword (Bool.not_eq_true _ ▸ hcurrent.2) after

theorem feed_label (hphase : reading.phase = .outer none) (hword : ¬ startsWithDollar label)
    (hnew : ¬ reading.builder.labels.contains label) :
    reading.feed (.word label) =
      .more ⟨reading.builder.noteLabel label, reading.floor, .outer (some label)⟩ := by
  rw [feed, hphase]
  simp only [feedOuter, feedLabel, if_neg hword, if_neg hnew]

end Reading

end Metamath.Database
