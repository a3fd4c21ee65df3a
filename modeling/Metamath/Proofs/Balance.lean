import Metamath.Proofs.Arrival
import Metamath.Proofs.Grammar
import Metamath.Proofs.Recording

/-!
# Blocks of one input

The blocks of an input balance if each of its closing keywords closes a block that the same input
opened, and no block is left open. A builder does not follow a single input, it counts the blocks of
all reads on one stack, and a read that fails leaves its blocks open. At the end of a read only the
blocks above those from before are looked at. A closing keyword, in contrast, is refused only when
nothing but the outermost block is left, whoever opened the others.

So reads balance exactly if no block is open when they begin. This is so as long as reads succeed;
after a read that failed, the next one can close blocks that it did not open.
-/

namespace Metamath

/-- How many blocks are open after a token. A closing keyword without an open block closes none. -/
def Token.nesting (opened : Nat) : Token → Nat
  | .keyword .blockOpen => opened + 1
  | .keyword .blockClose => opened - 1
  | _ => opened

namespace Database

/-- How many of the blocks that tokens open are still open at their end. -/
def openBlocks (tokens : List Token) : Nat :=
  tokens.foldl (fun count token => token.nesting count) 0

/-- Every closing keyword closes a block that the tokens opened, and every block is closed. -/
structure Balanced (tokens : List Token) : Prop where
  matched : ∀ before after, tokens = before ++ .keyword .blockClose :: after →
    0 < openBlocks before
  closed : openBlocks tokens = 0

/-- What a read makes of the blocks of its input. If it ends well and without stopping, then the
input balances and no more and no fewer blocks are open than before. A closing keyword between two
statements without an open block of the input is refused; a label in front of it is reported
first. -/
structure Builder.BalancesOn (builder : Builder) (accept : Check → Except Error Unit)
    (items : List (Except Inclusion.Error Token)) : Prop where
  balanced : (builder.read accept items).result = .ok () →
    ¬ (builder.read accept items).builder.stopped →
    ∃ tokens, items = tokens.map .ok ∧ Balanced tokens ∧
      (builder.read accept items).builder.depth = builder.depth
  unmatched : ∀ before after checks current pending,
    items = before.map .ok ++ .ok (.keyword .blockClose) :: after →
    (Reading.start builder).Arrives accept before checks current →
    ¬ current.builder.stopped → current.phase = .outer pending → openBlocks before = 0 →
    (builder.read accept items).result =
      .error ⟨none, .structural (pending.elim .unmatchedClose .danglingLabel)⟩

/-! ### What tokens do to open blocks -/

end Database

theorem Scope.depth_of_pop {scope result : Scope} (hpop : scope.pop = .ok result) :
    result.depth + 1 = scope.depth := by
  rw [pop] at hpop
  split at hpop
  · cases hpop
  · rename_i frame frames hframes
    cases hpop
    rw [depth, depth, hframes, List.length_cons]

namespace Database

namespace Builder.Accepts

variable {builder result : Builder} {phase next : Phase} {token : Token} {check : Option Check}

theorem depth_eq (haccepts : builder.Accepts phase token check result next) {opened : Nat}
    (hdepth : builder.depth = opened + 1) : result.depth = token.nesting opened + 1 := by
  cases haccepts with
  | label | declaration | labelled | declaringWord | statingWord | provingWord | statement =>
    exact hdepth
  | enter => exact congrArg (· + 1) hdepth
  | @leave scope hinner hpop =>
    have hpopped : scope.depth + 1 = builder.depth := Scope.depth_of_pop hpop
    show scope.depth = opened - 1 + 1
    omega
  | @declare kind words _ hdeclare =>
    have hsame := builder.depth_declare kind words.reverse
    rw [hdeclare] at hsame
    exact hsame.trans hdepth
  | floating hadd =>
    obtain ⟨_, _, _, hscope, -, rfl⟩ := exists_of_addFloating hadd
    exact (Scope.depth_of_addFloating hscope).trans hdepth
  | essential hadd =>
    obtain ⟨-, _, _, hscope, -, rfl⟩ := exists_of_addEssential hadd
    exact (Scope.depth_of_modifyTop hscope).trans hdepth
  | axiomatic hadd =>
    obtain ⟨-, _, -, rfl⟩ := exists_of_addAxiomatic hadd
    exact hdepth
  | provable hadd =>
    obtain ⟨_, -, rfl, -⟩ := exists_of_addProvable hadd
    exact hdepth

theorem one_lt_depth (haccepts : builder.Accepts phase (.keyword .blockClose) check result next) :
    1 < builder.depth := by
  cases haccepts with
  | leave hinner _ => exact hinner

end Builder.Accepts

namespace Reading

variable {accept : Check → Except Error Unit} {reading last : Reading} {tokens : List Token}
  {checks : List Check}

theorem Arrives.depth_eq (harrives : Arrives accept reading tokens checks last) {opened : Nat}
    (hdepth : reading.builder.depth = opened + 1) :
    last.builder.depth = tokens.foldl (fun count token => token.nesting count) opened + 1 := by
  induction harrives generalizing opened with
  | here => exact hdepth
  | pass _ hpasses _ ih => exact ih (hpasses.accepts.1.depth_eq hdepth)

/-- If no blocks were open before, then the open blocks are those of the tokens. -/
theorem Arrives.balanced (harrives : Arrives accept reading tokens checks last)
    (hdepth : reading.builder.depth = 1) (hlast : last.builder.depth ≤ 1) : Balanced tokens where
  matched := by
    rintro before after rfl
    obtain ⟨_, middle, _, hbefore, hafter⟩ := harrives.exists_middle
    have hopen : middle.builder.depth = openBlocks before + 1 := hbefore.depth_eq hdepth
    cases hafter with
    | pass _ hpasses _ =>
      have hinner := hpasses.accepts.1.one_lt_depth
      omega
  closed := by
    have hopen : last.builder.depth = openBlocks tokens + 1 := harrives.depth_eq hdepth
    omega

theorem depth_le_of_finish_ok (hstopped : ¬ reading.builder.stopped)
    (hfinish : reading.finish.2 = .ok ()) : reading.builder.depth ≤ reading.floor + 1 := by
  rw [finish, if_neg hstopped] at hfinish
  split at hfinish
  · cases hfinish
  · split_ifs at hfinish with hopen
    exact Nat.not_lt.mp hopen
  · cases hfinish

/-- A closing keyword is refused in the outermost block. -/
theorem result_run_blockClose {pending : Option Symbol} {rest : List (Except Inclusion.Error Token)}
    (hstopped : ¬ reading.builder.stopped) (hphase : reading.phase = .outer pending)
    (hdepth : reading.builder.depth ≤ 1) :
    (reading.run accept (.ok (.keyword .blockClose) :: rest)).result =
      .error ⟨none, .structural (pending.elim .unmatchedClose .danglingLabel)⟩ := by
  obtain ⟨builder, floor, phase⟩ := reading
  cases hphase
  have hfeed : feed ⟨builder, floor, .outer pending⟩ (.keyword .blockClose) =
      .refused ⟨none, .structural (pending.elim .unmatchedClose .danglingLabel)⟩ builder := by
    cases pending with
    | some label => rfl
    | none => exact if_pos hdepth
  rw [run_cons_of_refused hstopped hfeed]

end Reading

namespace Builder

variable {builder : Builder} {accept : Check → Except Error Unit}
  {items : List (Except Inclusion.Error Token)}

theorem depth_read_of_result_ok (hdepth : builder.depth = 0)
    (hresult : (builder.read accept items).result = .ok ()) :
    (builder.read accept items).builder.depth = 0 := by
  obtain ⟨_, _, _, last, -, harrives, -, hfinish, hbuilder⟩ :=
    Reading.exists_arrives_of_result_ok hresult
  have hfloor : last.floor = 0 := harrives.floor_eq.trans hdepth
  rw [read, hbuilder, Reading.finish_of_ok hfinish, hfloor]
  exact depth_truncate_zero _

theorem balancesOn_of_depth_eq_zero (hdepth : builder.depth = 0) :
    builder.BalancesOn accept items where
  balanced := by
    intro hresult hstopped
    have hclosed := depth_read_of_result_ok hdepth hresult
    obtain ⟨tokens, rest, checks, last, rfl, harrives, hrest, hfinish, hbuilder⟩ :=
      Reading.exists_arrives_of_result_ok hresult
    rw [read, hbuilder, Reading.finish_of_ok hfinish] at hstopped
    obtain rfl : rest = [] := hrest.resolve_right hstopped
    have hfloor : last.floor = 0 := harrives.floor_eq.trans hdepth
    have hlast := Reading.depth_le_of_finish_ok hstopped hfinish
    rw [hfloor] at hlast
    exact ⟨tokens, List.append_nil _, harrives.balanced (congrArg (· + 1) hdepth) hlast,
      hclosed.trans hdepth.symm⟩
  unmatched := by
    rintro before after checks current pending rfl harrives hstopped hphase hopen
    have hcurrent : current.builder.depth = openBlocks before + 1 :=
      harrives.depth_eq (congrArg (· + 1) hdepth)
    rw [read, harrives.run_append]
    exact Reading.result_run_blockClose hstopped hphase (by omega)

/-- A builder that has stopped reads nothing. -/
theorem balancesOn_of_stopped (hstopped : builder.stopped) : builder.BalancesOn accept items where
  balanced := by
    intro _ hrunning
    have hstart : (Reading.start builder).builder.stopped := hstopped
    rw [read, Reading.run_of_stopped hstart, Reading.finish, if_pos hstart] at hrunning
    exact absurd hstopped hrunning
  unmatched := by
    rintro before after checks current pending - harrives hrunning - -
    cases harrives with
    | here => exact absurd hstopped hrunning
    | pass hstart _ _ => exact absurd hstopped hstart

/-- A closing keyword alone is accepted if it can close a block of an earlier read. -/
theorem result_read_blockClose (hstopped : ¬ builder.stopped) (hdepth : 0 < builder.depth) :
    (builder.read accept [.ok (.keyword .blockClose)]).result = .ok () := by
  have hinner : 1 < (Reading.start builder).builder.depth := Nat.succ_lt_succ hdepth
  -- what is closed is the block of the read itself, and then the blocks from before are left
  have hfeed : (Reading.start builder).feed (.keyword .blockClose) =
      .more ⟨builder, builder.depth, .outer none⟩ := if_neg (Nat.not_le.mpr hinner)
  have hfinish : Reading.finish ⟨builder, builder.depth, .outer none⟩ =
      (builder.truncate builder.depth, .ok ()) :=
    Reading.finish_of_closed hstopped (Nat.le_succ _)
  rw [read, Reading.run_cons_of_more hstopped hfeed, Reading.run, hfinish]

/-- The reads of a builder treat the blocks of all inputs as they should, whatever is answered to
checks, exactly if no block is open before or the builder has stopped. After successful reads no
block is open; but a read that fails leaves blocks open, and then the next one can end well although
it closes blocks that it did not open. -/
theorem balancesOn_iff_depth_eq_zero (builder : Builder) :
    ((∀ accept items, builder.BalancesOn accept items) ↔ builder.stopped ∨ builder.depth = 0) ∧
      (builder.depth = 0 → ∀ accept items, (builder.read accept items).result = .ok () →
        (builder.read accept items).builder.depth = 0) := by
  refine ⟨⟨fun hbalances => ?_, ?_⟩, fun hdepth accept items => depth_read_of_result_ok hdepth⟩
  · by_contra hopen
    obtain ⟨hstopped, hdepth⟩ := not_or.mp hopen
    have hclose := hbalances Check.run [.ok (.keyword .blockClose)]
    have hrefused := hclose.unmatched [] [] [] _ none rfl .here hstopped rfl rfl
    rw [result_read_blockClose hstopped (Nat.pos_of_ne_zero hdepth)] at hrefused
    cases hrefused
  · rintro (hstopped | hdepth) accept items
    · exact balancesOn_of_stopped hstopped
    · exact balancesOn_of_depth_eq_zero hdepth

/-- A constant is declared twice, outside of all blocks. -/
def redeclaringTokens : List (Except Inclusion.Error Token) :=
  ["$c", "a", "a", "$."].map fun word => .ok (.ofRun word.toList)

/-- The builder after a read that failed without opening a block of its own. -/
def redeclaringBuilder : Builder :=
  ((new ⟨none, none⟩).read Check.run redeclaringTokens).builder

theorem unmatched_close_accepted :
    redeclaringBuilder.Reached ∧
      (redeclaringBuilder.read Check.run [.ok (.keyword .blockClose)]).result = .ok () ∧
      ¬ Balanced [.keyword .blockClose] ∧
      ¬ redeclaringBuilder.BalancesOn Check.run [.ok (.keyword .blockClose)] := by
  have hresult : (redeclaringBuilder.read Check.run [.ok (.keyword .blockClose)]).result =
      .ok () := by decide +kernel
  have hstopped : ¬ redeclaringBuilder.stopped := by decide +kernel
  refine ⟨.read _ _ (.new _), hresult, fun hbalanced => ?_, fun hbalances => ?_⟩
  · exact Nat.lt_irrefl 0 (hbalanced.matched [] [] rfl)
  · have hrefused := hbalances.unmatched [] [] [] _ none rfl .here hstopped rfl rfl
    rw [hresult] at hrefused
    cases hrefused

end Builder

end Database

end Metamath
