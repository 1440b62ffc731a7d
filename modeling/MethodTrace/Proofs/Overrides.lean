import MethodTrace.Proofs.WrittenSettings
import MethodTrace.Session

/-!
# Settings of a session

A settings file is checked as it stands, before the command line overrides it. So there are settings
exactly if those of the file and those that come of the overrides are both valid; of overrides that
make valid settings invalid the exit code says that the user is to blame.
-/

namespace MethodTrace

theorem Settings.ofFile_toUTF8 (text : String) :
    ofFile (.ok text.toUTF8) = (do (← ofText text).check) := by
  have hread : String.fromUTF8? text.toUTF8 = some text := by
    simp only [String.fromUTF8?, String.toUTF8_eq_toByteArray, dif_pos text.isValidUTF8]
    rfl
  simp only [ofFile, hread]

namespace Session

variable {o : Options} {read : String → Except FileFault ByteArray} {base : Settings}

/-- What the command line overrides: the settings in the file, or the defaults. -/
def StartsFrom (o : Options) (read : String → Except FileFault ByteArray) (base : Settings) : Prop :=
  match o.settingsPath with
  | none => base = Settings.default
  | some path => ∃ text : String, read path = .ok text.toUTF8 ∧ Settings.ofText text = .ok base

/-- A setting is that of the command line if one is given there. -/
structure Merged (base : Settings) (o : Options) (s : Settings) : Prop where
  threadSlots : s.threadSlots = o.threadSlots.getD base.threadSlots
  depthLimit : s.depthLimit = o.depthLimit.getD base.depthLimit
  captureReturns : s.captureReturns = true ↔ o.captureReturns = true ∨ base.captureReturns = true
  bufferCapacity : s.bufferCapacity = o.bufferCapacity.getD base.bufferCapacity
  expandOnFirstInvoke : s.expandOnFirstInvoke = base.expandOnFirstInvoke

theorem merged_iff {s : Settings} : Merged base o s ↔ override base o = s := by
  constructor
  · rintro ⟨hslots, hlimit, hcapture, hcapacity, hexpand⟩
    have hboth : (o.captureReturns || base.captureReturns) = s.captureReturns := by
      rw [Bool.eq_iff_iff, Bool.or_eq_true, hcapture]
    simp only [override, ← hslots, ← hlimit, ← hcapacity, hboth, ← hexpand]
  · rintro rfl
    exact ⟨rfl, rfl, Bool.or_eq_true_iff, rfl, rfl⟩

theorem settings_of_valid (h : StartsFrom o read base) (hvalid : base.valid = true) :
    settings o read = (override base o).check.mapError .settings := by
  unfold StartsFrom at h
  unfold settings
  rcases hpath : o.settingsPath with _ | path <;> rw [hpath] at h
  · obtain rfl := h
    rfl
  · obtain ⟨text, hread, htext⟩ := h
    simp only [hread, Settings.ofFile_toUTF8, htext, Settings.ok_bind, Settings.check, hvalid,
      if_true]
    rfl

/-- The settings in a file are checked before anything overrides them. -/
theorem settings_of_invalid (h : StartsFrom o read base) (hvalid : base.valid = false) :
    ∃ path, o.settingsPath = some path ∧ settings o read = .error (.load path .invalid) := by
  unfold StartsFrom at h
  unfold settings
  rcases hpath : o.settingsPath with _ | path <;> rw [hpath] at h
  · obtain rfl := h
    cases hvalid
  · obtain ⟨text, hread, htext⟩ := h
    refine ⟨path, rfl, ?_⟩
    simp only [hread, Settings.ofFile_toUTF8, htext, Settings.ok_bind, Settings.check, hvalid]
    rfl

theorem prepare_of_error {f : Failure} (h : settings o read = .error f) :
    prepare o read = .error f := by
  rw [prepare, h]
  rfl

theorem toList_toLower (s : String) : s.toLower.toList = s.toList.map Char.toLower :=
  String.toList_map

theorem exitCode_invalid : (Failure.settings .invalid).exitCode = 2 := by
  have hlower : Settings.invalidMessage.toLower.toList =
      "invalid configuration: buffer_capacity must be at least 1".toList := by
    rw [toList_toLower]
    decide
  have hblames : Failure.blamesUser Settings.invalidMessage = true := by
    rw [Failure.blamesUser, hlower]
    decide
  exact if_pos hblames

/-- There are settings exactly if those of the file, or the defaults, and the overridden ones are
both valid, and they are the overridden ones; if only the overrides make them invalid, the session
ends with 2. -/
theorem overrides_decide_valid_settings (h : StartsFrom o read base) :
    (∀ s, settings o read = .ok s ↔ base.valid = true ∧ s.valid = true ∧ Merged base o s) ∧
    (∀ s, Merged base o s → base.valid = true → s.valid = false →
      ∃ f, settings o read = .error f ∧ prepare o read = .error f ∧ f.exitCode = 2) := by
  constructor
  · intro s
    rw [merged_iff]
    rcases hbase : base.valid with _ | _
    · obtain ⟨path, -, hfails⟩ := settings_of_invalid h hbase
      simp [hfails]
    · rw [settings_of_valid h hbase, Settings.check]
      rcases hvalid : (override base o).valid with _ | _
      · constructor
        · intro hs
          cases hs
        · rintro ⟨-, hs, rfl⟩
          exact absurd hs (by simp [hvalid])
      · constructor
        · intro hs
          obtain rfl := Except.ok.inj hs
          exact ⟨rfl, hvalid, rfl⟩
        · rintro ⟨-, -, rfl⟩
          rfl
  · intro s hs hbase hvalid
    rw [merged_iff] at hs
    subst hs
    have hfails : settings o read = .error (.settings .invalid) := by
      rw [settings_of_valid h hbase, Settings.check, hvalid]
      rfl
    exact ⟨_, hfails, prepare_of_error hfails, exitCode_invalid⟩

/-- A file with a capacity of 100, overridden by 7 threads and by a capacity of 0. -/
theorem overrides_decide_beside_a_file :
    let read : String → Except FileFault ByteArray := fun _ =>
      .ok "\x7b\"buffer_capacity\":100\x7d".toUTF8
    let o := { CommandLine.defaults with settingsPath := some "c.json" }
    settings { o with threadSlots := some 7 } read =
        .ok { Settings.default with threadSlots := 7, bufferCapacity := 100 } ∧
      ∃ f, settings { o with bufferCapacity := some 0 } read = .error f ∧ f.exitCode = 2 := by
  intro read o
  let base := { Settings.default with bufferCapacity := 100 }
  have hbase : ∀ o', o'.settingsPath = some "c.json" → StartsFrom o' read base := by
    intro o' ho'
    rw [StartsFrom, ho']
    exact ⟨_, rfl, Settings.ofText_member base .bufferCapacity (by decide)⟩
  constructor
  · exact ((overrides_decide_valid_settings (hbase { o with threadSlots := some 7 } rfl)).1 _).mpr
      ⟨rfl, rfl, merged_iff.mpr rfl⟩
  · obtain ⟨f, hf, -, hcode⟩ := (overrides_decide_valid_settings
      (hbase { o with bufferCapacity := some 0 } rfl)).2 _ (merged_iff.mpr rfl) rfl rfl
    exact ⟨f, hf, hcode⟩

/-- An override does not mend a file without room for records. -/
theorem override_does_not_mend_file :
    let read : String → Except FileFault ByteArray := fun _ =>
      .ok "\x7b\"buffer_capacity\":0\x7d".toUTF8
    let o := { CommandLine.defaults with settingsPath := some "c.json", bufferCapacity := some 100 }
    let base := { Settings.default with bufferCapacity := 0 }
    StartsFrom o read base ∧ (∃ s, Merged base o s ∧ s.valid = true) ∧
      ∃ f, settings o read = .error f ∧ f.exitCode = 1 := by
  intro read o base
  have hbase : StartsFrom o read base :=
    ⟨_, rfl, Settings.ofText_member base .bufferCapacity (by decide)⟩
  have hlower : (Failure.load "c.json" .invalid).context.toLower.toList =
      "failed to load config from c.json".toList := by
    rw [toList_toLower]
    decide
  have hblames : Failure.blamesUser (Failure.load "c.json" .invalid).context = false := by
    rw [Failure.blamesUser, hlower]
    decide
  refine ⟨hbase, ⟨_, merged_iff.mpr rfl, rfl⟩, .load "c.json" .invalid, ?_, ?_⟩
  · obtain ⟨_, ⟨⟩, hfails⟩ := settings_of_invalid hbase rfl
    exact hfails
  · exact if_neg (Bool.eq_false_iff.mp hblames)

end Session

end MethodTrace
