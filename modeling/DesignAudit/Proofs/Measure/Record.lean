import DesignAudit.Measure.Measurement
import DesignAudit.Proofs.Data.Written
import DesignAudit.Proofs.Measure.Plateau
import DesignAudit.Proofs.Text.Cutting
import DesignAudit.Proofs.Traversal

/-!
# The record of rounds

Every measurement that gets to its end adds one line to the record, and later ones read it.
`Recorded` are the records that any number of measurements leave behind, with the number of marked
benches that each of them has found. Each line of such a record can be read back (`isRound_record`),
so the next measurement knows all earlier numbers in their order, and counts its own round right
(`Recorded.exists_readRecord`, `Recorded.nextRound_eq`).
-/

namespace DesignAudit.Measure

open Data Number Text Traversal

/-! ## Lines -/

/-- The number of marked benches as a round holds it. -/
def lowValue : Option Nat → Value
  | some n => .whole n
  | none => .null

/-- A line that can be read as a round with this number of marked benches. -/
structure IsRound (line : String) (low : Option Nat) : Prop where
  one_line : '\n' ∉ line.toList
  not_blank : line.toList.any (!isBlank ·) = true
  tells : ∃ v, readData line = .ok v ∧ member v lowName = .ok (lowValue low) ∧
    ∃ b, member v "ts" = .ok (.real b)

theorem readData_written (v : Value) : readData v.written = .ok v.readBack := by
  rw [readData, read_written]
  rfl

theorem member_readBack (ms : List (String × Value)) (name : String) :
    member (Value.record ms).readBack name =
      .ok (((readBackMembers ms).reverse.lookup name).getD .null) := by
  rw [Value.readBack, member, ← Register.get?_ofList]
  rfl

/-- **A round is read back.** What is written for a round is a line that tells its number. -/
theorem isRound_record (f : Found) (s : Setting) (round : Nat) (since : Binary) :
    IsRound (f.record s round since).written f.shares.low? where
  one_line h := absurd (isPrintable_written _ _ h) (by decide)
  not_blank := by
    rw [Found.record, Value.written, String.toList_append, String.toList_append, List.any_append,
      List.any_append]
    rfl
  tells := by
    refine ⟨_, readData_written _, ?_, reread s.now, ?_⟩
    · rw [Found.record, member_readBack]
      cases f.shares.low? <;> rfl
    · rw [Found.record, member_readBack]
      rfl

/-! ## Lines of a record -/

/-- The characters of a record with these lines. -/
def recordText (lines : List String) : List Char := lines.flatMap (·.toList ++ ['\n'])

variable {lows : List (Option Nat)} {lines : List String} {s : Setting} {text : String}

theorem cut_recordText (h : ∀ line ∈ lines, '\n' ∉ line.toList) :
    cut ['\n'] (recordText lines) = lines.map String.toList ++ [[]] := by
  induction lines with
  | nil => rfl
  | cons line lines ih =>
    obtain ⟨hline, h⟩ := List.forall_mem_cons.mp h
    have hcons : recordText (line :: lines) = line.toList ++ '\n' :: recordText lines := by
      simp [recordText]
    rw [hcons, cut_singleton_append hline, ih h, List.map_cons, List.cons_append]

theorem forall_isRound (h : List.Forall₂ IsRound lines lows) :
    ∀ line ∈ lines, ∃ low, IsRound line low := by
  intro line hline
  obtain ⟨low, -, hround⟩ := exists_mem_of_forall₂ h hline
  exact ⟨low, hround⟩

theorem recordLines_eq (htext : text.toList = recordText lines)
    (h : ∀ line ∈ lines, ∃ low, IsRound line low) : recordLines text = lines := by
  have hcut : cutAt "\n" text = lines ++ [""] := by
    have hlines : ∀ line ∈ lines, '\n' ∉ line.toList := fun line hline =>
      (h line hline).elim fun _ hround => hround.one_line
    show (cut ['\n'] text.toList).map String.ofList = _
    rw [htext, cut_recordText hlines, List.map_append, List.map_map]
    simp [Function.comp_def]
  have hkept : ∀ line ∈ lines, line.toList.any (!isBlank ·) = true := fun line hline =>
    (h line hline).elim fun _ hround => hround.not_blank
  rw [recordLines, hcut, List.filter_append, List.filter_eq_self.mpr hkept]
  exact List.append_nil lines

/-- The numbers that rounds tell, in their order; a round without a valid share tells none. -/
def told (lows : List (Option Nat)) : List Int := lows.filterMap (·.map Int.ofNat)

theorem gather_rounds (h : List.Forall₂ IsRound lines lows) :
    gather lines = ((told lows).map .whole, true) := by
  induction h with
  | nil => rfl
  | @cons line low lines lows hround _ ih =>
    obtain ⟨v, hread, hlow, -⟩ := hround.tells
    have hmember : (do member (← readData line) lowName) = .ok (lowValue low) := by
      rw [hread]
      exact hlow
    rw [gather, hmember, ih]
    cases low <;> rfl

theorem exists_sinceLast (h : ∀ line ∈ lines, ∃ low, IsRound line low)
    (now : Binary) : ∃ since, sinceLast now lines = .ok since := by
  rw [sinceLast]
  cases hlast : lines.getLast? with
  | none => exact ⟨_, rfl⟩
  | some line =>
    obtain ⟨low, hround⟩ := h line (List.mem_of_getLast? hlast)
    obtain ⟨v, hread, -, b, hts⟩ := hround.tells
    refine ⟨now.sub b, ?_⟩
    simp only [hread]
    show (member v "ts").bind _ = _
    rw [hts]
    rfl

/-! ## Measurements one after the other -/

/-- What a measurement finds that has this coverage. -/
def foundIn (s : Setting) (c : Coverage) : Found :=
  ⟨c, benchCount (s.files.getD benchFile ""), (sharesStage s).found, (selfCheckStage s).found.2⟩

/-- The coverage that is told to a measurement. -/
def CoverageTold (s : Setting) (c : Coverage) : Prop :=
  ∃ text, s.files.get? coverageFile = some text ∧ (do Coverage.ofData (← readData text)) = .ok c

/-- A measurement either fails, and then it adds no round, or it gets to its end. -/
theorem measure_cases {r : Result} (h : measure s = .ok r) :
    (r.exit ≠ none ∧ r.round = none) ∨ ∃ c err, CoverageTold s c ∧ r = conclude s c err := by
  rw [measure] at h
  split at h
  · cases h
  · split at h
    · obtain rfl := Except.ok.inj h
      exact .inl ⟨nofun, rfl⟩
    · rename_i text htext
      have hfile : s.files.get? coverageFile = some text := by
        split at htext
        · exact htext
        · cases htext
      obtain ⟨v, hv, h⟩ := bind_eq_ok_iff.mp h
      obtain ⟨c, hc, h⟩ := bind_eq_ok_iff.mp h
      obtain rfl := pure_eq_ok_iff.mp h
      exact .inr ⟨c, _, ⟨text, hfile, bind_eq_ok_iff.mpr ⟨v, hv, hc⟩⟩, rfl⟩

/-- The records that measurements leave behind, each of which has read what the earlier ones have
written, and the numbers of marked benches that they have found. -/
inductive Recorded : String → List (Option Nat) → Prop where
  | start : Recorded "" []
  | add {text : String} {lows : List (Option Nat)} {s : Setting} {r : Result} {round : Value}
      (earlier : Recorded text lows) (file : s.files.getD recordFile "" = text)
      (measured : measure s = .ok r) (added : r.round = some round) :
      Recorded (withRound text round) (lows ++ [(sharesStage s).found.low?])

/-- A round that is added tells what the measurement has found. -/
theorem isRound_of_measure {r : Result} {round : Value} (h : measure s = .ok r)
    (hround : r.round = some round) : IsRound round.written (sharesStage s).found.low? := by
  rcases measure_cases h with ⟨-, hnone⟩ | ⟨c, err, -, rfl⟩
  · rw [hnone] at hround
    cases hround
  · have hadd : (addRound s (foundIn s c)).2 = some round := hround
    rw [addRound] at hadd
    dsimp only at hadd
    split at hadd
    · cases hadd
    · obtain ⟨since, -, rfl⟩ := Option.map_eq_some_iff.mp hadd
      exact isRound_record (foundIn s c) s _ since

/-- A record is made of the rounds of all measurements, in their order. -/
theorem Recorded.exists_rounds (h : Recorded text lows) :
    ∃ lines, text.toList = recordText lines ∧ List.Forall₂ IsRound lines lows := by
  induction h with
  | start => exact ⟨[], rfl, .nil⟩
  | @add text lows s r round _ _ measured added ih =>
    obtain ⟨lines, htext, hrounds⟩ := ih
    refine ⟨lines ++ [round.written], ?_, ?_⟩
    · rw [withRound, String.toList_append, String.toList_append, htext]
      simp [recordText]
    · exact List.rel_append hrounds (.cons (isRound_of_measure measured added) .nil)

/-- Each line of a record tells a round, in the order of the measurements. -/
theorem Recorded.forall₂_recordLines (h : Recorded text lows) :
    List.Forall₂ IsRound (recordLines text) lows := by
  obtain ⟨lines, htext, hrounds⟩ := h.exists_rounds
  rwa [recordLines_eq htext (forall_isRound hrounds)]

/-- **The history.** The next measurement knows the numbers of all earlier rounds, in their order.
-/
theorem Recorded.exists_readRecord (h : Recorded text lows) (now : Binary) :
    ∃ since, readRecord now text = ((told lows).map .whole, some since) := by
  obtain ⟨since, hsince⟩ := exists_sinceLast (forall_isRound h.forall₂_recordLines) now
  refine ⟨since, ?_⟩
  rw [readRecord]
  simp only [hsince, gather_rounds h.forall₂_recordLines]
  rfl

theorem Recorded.nextRound_eq (h : Recorded text lows) :
    nextRound text = lows.length + 1 := by
  rw [nextRound, h.forall₂_recordLines.length_eq]

theorem Recorded.exists_addRound (h : Recorded text lows)
    (hfile : s.files.getD recordFile "" = text) (f : Found) :
    ∃ since, addRound s f = ((told lows).map .whole,
      if s.readOnly then none else some (f.record s (lows.length + 1) since)) := by
  obtain ⟨since, hsince⟩ := h.exists_readRecord s.now
  refine ⟨since, ?_⟩
  rw [addRound]
  simp only [hfile, hsince, h.nextRound_eq, Option.map_some]

end DesignAudit.Measure
