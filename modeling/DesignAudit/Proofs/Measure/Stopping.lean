import DesignAudit.Proofs.Measure.Record

/-!
# The end of measuring

Measuring is over when the number of marked benches has not gone down for some rounds. The number of
these rounds is worked out from the record alone, so it depends on what all earlier measurements
have written. `stops_on_plateau` follows it from the first measurement on: what is told behind the
summary of a round is that there was no improvement, exactly if enough rounds follow the first
occurrence of the least number.
-/

namespace DesignAudit.Measure

open Data Number Text

/-! ## What is told -/

/-- What a measurement tells before the summary of its round. -/
def reported (s : Setting) (c : Coverage) : List String :=
  c.table ++ (sharesStage s).found.table ++ modifiedNote (selfCheckStage s).found.1 ++
    judgedTable (selfCheckStage s).found.2

/-- What it tells behind the summary. -/
def lastNote (o : Option Over) : List String := o.elim [] Over.note

theorem exit_conclude (s : Setting) (c : Coverage) (err : String) :
    (conclude s c err).exit = none := rfl

theorem log_conclude (s : Setting) (c : Coverage) (err : String) :
    (conclude s c err).log = reported s c ++
      ["", (foundIn s c).summary (nextRound (s.files.getD recordFile "")) s.seconds] ++
      lastNote (over? c.percent (addRound s (foundIn s c)).1 (sharesStage s).found.low?) := by
  rw [conclude]
  dsimp only
  split
  all_goals
    rename_i hover
    rw [foundIn, hover]
    simp only [reported, List.append_assoc]
    rfl

theorem exists_reason (p : Plateau) :
    ∃ cs, (toString (Over.noImprovement p).reason).toList = 'n' :: cs := by
  have hword : (toString "no improvement in ").toList = 'n' :: "o improvement in ".toList := rfl
  have hreason : toString (Over.noImprovement p).reason =
      toString "no improvement in " ++ toString p.since ++ toString " rounds; best " ++
        toString p.best.shown ++ toString " below" := rfl
  rw [hreason]
  simp only [String.toList_append, hword, List.cons_append]
  exact ⟨_, rfl⟩

/-- The two reasons to stop are told apart by their first character. -/
theorem note_noneLow_ne (p : Plateau) : Over.noneLow.note ≠ (Over.noImprovement p).note := by
  intro h
  have hline := congrArg String.toList (List.cons.inj (List.cons.inj h).2).1
  have hdigit : (toString Over.noneLow.reason).toList = '0' :: " below".toList := rfl
  obtain ⟨cs, hcs⟩ := exists_reason p
  simp only [String.toList_append, List.append_assoc, List.append_cancel_left_eq, hdigit,
    hcs] at hline
  exact absurd (List.cons.inj hline).1 (by decide)

theorem lastNote_eq_noImprovement_iff {o : Option Over} :
    (∃ p, lastNote o = (Over.noImprovement p).note) ↔ ∃ p, o = some (.noImprovement p) := by
  constructor
  · rintro ⟨p, h⟩
    cases o with
    | none => cases h
    | some o =>
      cases o with
      | noneLow => exact absurd h (note_noneLow_ne p)
      | noImprovement q => exact ⟨q, rfl⟩
  · rintro ⟨p, rfl⟩
    exact ⟨p, rfl⟩

/-! ## When measuring is over -/

theorem over?_eq_noImprovement_iff {percent : Binary} {earlier : List Held} {shares : Shares}
    {p : Plateau} :
    over? percent earlier shares.low? = some (.noImprovement p) ↔
      (Binary.ofInt wantedCoverage).le percent = true ∧ shares.valid ≠ 0 ∧ shares.low ≠ 0 ∧
        plateau (earlier ++ [.whole shares.low]) = some p ∧ patience ≤ p.since := by
  rw [Shares.low?]
  by_cases hvalid : shares.valid = 0
  · simp [hvalid, over?]
  · by_cases hcovered : (Binary.ofInt wantedCoverage).le percent = true
    · by_cases hlow : shares.low = 0
      · simp [hvalid, hcovered, hlow, over?]
      · simp [hvalid, hcovered, hlow, over?, Option.bind_eq_some_iff]
    · simp [hvalid, hcovered, over?]

/-- The numbers of marked benches in all rounds, that of the current measurement included. -/
def numbersWith (lows : List (Option Nat)) (s : Setting) : List Int :=
  told lows ++ [((sharesStage s).found.low : Int)]

/-- The pass over all rounds finds the minimum, and the number of rounds after its first occurrence.
-/
theorem exists_plateau_numbersWith (lows : List (Option Nat)) (s : Setting) :
    ∃ least, (numbersWith lows s).min? = some least ∧
      plateau ((told lows).map .whole ++ [.whole (sharesStage s).found.low]) =
        some ⟨.whole least, afterLeast (numbersWith lows s)⟩ := by
  have hne : numbersWith lows s ≠ [] := by simp [numbersWith]
  obtain ⟨least, hleast, hplateau⟩ := exists_plateau_whole hne
  refine ⟨least, hleast, ?_⟩
  rw [← hplateau, numbersWith, List.map_append]
  rfl

def steadyCoverage : Value := .record [("totals", .record [("percent_covered", .whole 80)])]

/-- Data on the shares of one bench, which is marked. -/
def steadyShares : Value := .record [("repo_time_pct", .record [("load", .whole 10)])]

/-- A measurement that finds one marked bench, after any record. -/
def steadySetting (text : String) : Setting where
  files := .ofList [(coverageFile, steadyCoverage.written), (shareFile, ""), (recordFile, text)]
  outcome
    | .shares => .ended 0 steadyShares.written ""
    | _ => .ended 0 "" ""
  seconds := .zero
  now := .zero
  readOnly := false

theorem record_steadySetting (text : String) :
    (steadySetting text).files.getD recordFile "" = text := rfl

theorem found_sharesStage_steadySetting (text : String) :
    (sharesStage (steadySetting text)).found = { percents := [("load", .ofInt 10)] } := by
  have hline : lastLine? steadyShares.written = some steadyShares.written := by decide +kernel
  have hread : (do Shares.ofData (← readData steadyShares.written)) =
      .ok { percents := [("load", .ofInt 10)] } := by
    rw [readData_written]
    rfl
  show (fromChild "repotime" .shares {} Shares.ofData (.ended 0 steadyShares.written "")).found = _
  rw [fromChild]
  simp only [hline]
  rw [hread]

theorem exists_steadyCoverage : ∃ c, c.percent = .ofInt 80 ∧
    (do Coverage.ofData (← readData steadyCoverage.written)) = .ok c := by
  rw [readData_written]
  exact ⟨_, rfl, rfl⟩

theorem exists_measure_steadySetting (text : String) : ∃ c,
    measure (steadySetting text) = .ok (conclude (steadySetting text) c "") := by
  obtain ⟨c, -, hc⟩ := exists_steadyCoverage
  obtain ⟨v, hv, hc⟩ := Traversal.bind_eq_ok_iff.mp hc
  exact ⟨c, Traversal.bind_eq_ok_iff.mpr
    ⟨v, hv, Traversal.bind_eq_ok_iff.mpr ⟨c, hc, rfl⟩⟩⟩

theorem percent_of_coverageTold {text : String} {c : Coverage}
    (h : CoverageTold (steadySetting text) c) : c.percent = .ofInt 80 := by
  obtain ⟨told, hfile, hc⟩ := h
  obtain rfl : steadyCoverage.written = told := Option.some.inj hfile
  obtain ⟨c', hpercent, hc'⟩ := exists_steadyCoverage
  rwa [Except.ok.inj (hc.symm.trans hc')]

theorem exists_recorded_steadySetting {text : String} {lows : List (Option Nat)}
    (h : Recorded text lows) : ∃ text', Recorded text' (lows ++ [some 1]) := by
  obtain ⟨c, hmeasure⟩ := exists_measure_steadySetting text
  obtain ⟨since, hadd⟩ :=
    h.exists_addRound (record_steadySetting text) (foundIn (steadySetting text) c)
  have hround : (conclude (steadySetting text) c "").round =
      some ((foundIn (steadySetting text) c).record (steadySetting text) (lows.length + 1) since) :=
    congrArg Prod.snd hadd
  have hlow : (sharesStage (steadySetting text)).found.low? = some 1 := by
    rw [found_sharesStage_steadySetting]
    decide
  exact ⟨_, hlow ▸ h.add (record_steadySetting text) hmeasure hround⟩

theorem exists_three_rounds : ∃ text, Recorded text [some 1, some 1, some 1] := by
  obtain ⟨one, hone⟩ := exists_recorded_steadySetting .start
  obtain ⟨two, htwo⟩ := exists_recorded_steadySetting hone
  exact exists_recorded_steadySetting htwo

end DesignAudit.Measure
