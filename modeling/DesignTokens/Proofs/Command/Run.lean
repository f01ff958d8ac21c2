import DesignTokens.Command.Run
import DesignTokens.Proofs.Except
import DesignTokens.Proofs.Files
import DesignTokens.Proofs.Load
import DesignTokens.Proofs.Report

/-!
# What a run does to the files

* `Saving` : what a commit writes into its overrides; `Reaches disk request s` : the request is such a
  commit, and whatever comes before the write succeeds;
* `runRequest_cases`, `runRequest_of_reaches` : a run that is not finished is that of a commit that
  saves, and such a commit does write;
* `place_of_overridesOf` : where overrides could be loaded, or are not there, there is neither a
  directory nor the empty device;
* `perform_runRequest` : a run changes at most the file of its overrides, only if it saves, and then
  the saved values are loaded from it.
-/

namespace DesignTokens

/-- What a commit writes into its overrides, and what it reports. -/
structure Saving where
  path : String
  previous : Values
  id : String
  value : TokenValue
  report : CommitReport

namespace Saving

def values (s : Saving) : Values := s.previous.insert s.id s.value

def text (s : Saving) : String := (Values.toJson s.values).pretty ++ "\n"

/-- What is printed after the text is written, or if it cannot be. -/
def ending (s : Saving) : Option FileError → Output
  | none => commitOutput s.report
  | some e => .ofError (.unwritable s.path e)

def run (s : Saving) : Run := .write s.path s.text s.ending

end Saving

/-- The request is a commit that is to write its overrides; the rules, the tree and the previous
overrides are loaded, and the commit succeeds. -/
inductive Reaches (disk : Disk) : Request → Saving → Prop
  | commit {sources : Sources} {id argument path : String} {rs : RuleSet} {tree : Json}
      {report : CommitReport} {previous : Values}
      (hpath : sources.overrides = some path)
      (hrules : rulesOf disk sources.config = .ok rs)
      (htree : treeOf disk sources = .ok tree)
      (hreport : commitValue rs tree id (valueOfArgument argument) = .ok report)
      (hprevious : overridesOf disk (some path) = .ok previous) :
      Reaches disk (.run ⟨sources, .commit id argument true⟩)
        ⟨path, previous, id, valueOfArgument argument, report⟩

variable {disk : Disk} {time : String} {request : Request} {rs : RuleSet} {tree : Json}

/-! ## Which runs write -/

theorem commitValue_patch {id : String} {v : TokenValue} {report : CommitReport}
    (h : commitValue rs tree id v = .ok report) : report.commit.patch.entries = [(id, v)] := by
  obtain ⟨e, -, -, rfl⟩ := commitValue_eq_ok.1 h
  rfl

theorem writeRun_eq {path id : String} {v : TokenValue} {report : CommitReport} {previous : Values}
    (hreport : commitValue rs tree id v = .ok report)
    (hprevious : overridesOf disk (some path) = .ok previous) :
    writeRun disk path report = .ok (Saving.run ⟨path, previous, id, v, report⟩) := by
  unfold writeRun
  rw [hprevious, commitValue_patch hreport]
  rfl

theorem runRequest_of_reaches {s : Saving} (time : String) (h : Reaches disk request s) :
    runRequest disk time request = s.run := by
  cases h with
  | @commit sources id argument path rs tree report previous hpath hrules htree hreport hprevious =>
    have hcommit : (commitValue rs tree id (valueOfArgument argument)).mapError CommandError.report =
        .ok report := mapError_eq_ok_iff.2 hreport
    show runCommand disk time _ = _
    unfold runCommand
    rw [hrules]
    simp only [bind, Except.bind, htree, runOn, hcommit, commitRun, hpath, if_true,
      writeRun_eq hreport hprevious]

theorem commitRun_cases {overrides : Option String} {writes : Bool} {report : CommitReport} {run : Run}
    (h : commitRun disk overrides writes report = .ok run) : (∃ output, run = .finished output) ∨
      ∃ path previous, writes = true ∧ overrides = some path ∧
        overridesOf disk (some path) = .ok previous := by
  unfold commitRun at h
  split at h
  · rename_i hwrites
    split at h
    · rename_i path
      unfold writeRun at h
      obtain ⟨previous, hprevious, -⟩ := bind_eq_ok_iff.1 h
      exact .inr ⟨path, previous, hwrites, rfl, hprevious⟩
    · cases h
  · cases h
    exact .inl ⟨_, rfl⟩

theorem exists_finished {α : Type} {x : Except CommandError α} {f : α → Output} {run : Run}
    (h : (x >>= fun a => pure (.finished (f a))) = .ok run) : ∃ output, run = .finished output := by
  obtain ⟨a, -, hrun⟩ := bind_eq_ok_iff.1 h
  cases hrun
  exact ⟨f a, rfl⟩

/-- Only a commit that writes overrides is not finished by itself. -/
theorem runOn_cases {overrides : Option String} {command : Command} {run : Run}
    (h : runOn disk time overrides rs tree command = .ok run) : (∃ output, run = .finished output) ∨
      ∃ id argument path report previous, command = .commit id argument true ∧
        overrides = some path ∧ commitValue rs tree id (valueOfArgument argument) = .ok report ∧
        overridesOf disk (some path) = .ok previous := by
  cases command with
  | commit id argument writes =>
    obtain ⟨report, hreport, hrun⟩ := bind_eq_ok_iff.1 h
    rw [mapError_eq_ok_iff] at hreport
    rcases commitRun_cases hrun with hfinished | ⟨path, previous, rfl, hpath, hprevious⟩
    · exact .inl hfinished
    · exact .inr ⟨id, argument, path, report, previous, rfl, hpath, hreport, hprevious⟩
  | validate format => exact .inl (exists_finished h)
  | graph r => exact .inl (exists_finished h)
  | eval expr trace =>
    rw [runOn] at h
    split at h
    · cases h
    · exact .inl (exists_finished h)
  | emit format selector => exact .inl (exists_finished h)

theorem runRequest_cases (disk : Disk) (time : String) (request : Request) :
    (∃ output, runRequest disk time request = .finished output) ∨ ∃ s, Reaches disk request s := by
  cases request with
  | run i =>
    obtain ⟨sources, command⟩ := i
    show (∃ output, runCommand disk time _ = .finished output) ∨ _
    unfold runCommand
    dsimp only
    split
    · rename_i run hrun
      obtain ⟨rs, hrules, hrun⟩ := bind_eq_ok_iff.1 hrun
      obtain ⟨tree, htree, hrun⟩ := bind_eq_ok_iff.1 hrun
      rcases runOn_cases hrun with
        hfinished | ⟨id, argument, path, report, previous, rfl, hpath, hreport, hprevious⟩
      · exact .inl hfinished
      · exact .inr ⟨_, .commit hpath hrules htree hreport hprevious⟩
    · exact .inl ⟨_, rfl⟩
  | version => exact .inl ⟨_, rfl⟩
  | help => exact .inl ⟨_, rfl⟩
  | usage => exact .inl ⟨_, rfl⟩

/-! ## What is written is read -/

variable {fs : Files} {s : Saving} {p : Place}

/-- Where overrides were loaded, or nothing is there, a file can be written. -/
theorem place_of_overridesOf {path : String} {previous : Values}
    (h : overridesOf fs.disk (some path) = .ok previous) (hlocate : fs.locate path = .ok p) :
    fs.isDirectory p = false ∧ p ≠ Place.emptyDevice := by
  rw [overridesOf] at h
  split at h
  · rw [mapError_eq_ok_iff, loadOverrides_eq_ok] at h
    obtain ⟨text, hread, hparse⟩ := h
    obtain ⟨p', bytes, hlocate', hdirectory, hbytes, htext⟩ := Files.read_eq_ok.1 hread
    obtain rfl : p' = p := by simpa [hlocate] using hlocate'.symm
    refine ⟨hdirectory, ?_⟩
    rintro rfl
    -- the empty device has the empty text, which is no document
    cases hbytes
    cases htext
    cases hparse
  · rename_i hleads
    have hnone : (fs.isDirectory p || fs.isFile p) = false := by
      have hfalse : fs.leadsTo path = false := Bool.eq_false_iff.2 hleads
      rw [Files.leadsTo, hlocate] at hfalse
      exact hfalse
    rw [Bool.or_eq_false_iff] at hnone
    refine ⟨hnone.1, ?_⟩
    rintro rfl
    cases hnone.2

theorem Reaches.overridesOf_eq_ok (h : Reaches fs.disk request s) :
    overridesOf fs.disk (some s.path) = .ok s.previous := by
  cases h with
  | commit hpath hrules htree hreport hprevious => exact hprevious

theorem Reaches.read_of_write? {after : Files} (h : Reaches fs.disk request s)
    (hwrite : fs.write? s.path s.text = .ok after) : after.read s.path = .ok s.text := by
  obtain ⟨p, hlocate, -, -⟩ := Files.write?_eq_ok.1 hwrite
  obtain ⟨-, hdevice⟩ := place_of_overridesOf h.overridesOf_eq_ok hlocate
  exact Files.read_of_write? hwrite hlocate hdevice

theorem Reaches.loadOverrides_of_write? {after : Files} (h : Reaches fs.disk request s)
    (hwrite : fs.write? s.path s.text = .ok after) (hnumbers : s.values.NumbersReadBack) :
    loadOverrides after.disk s.path = .ok s.values :=
  loadOverrides_of_read (h.read_of_write? hwrite) hnumbers

/-- A commit that saves ends according to how its write goes. -/
theorem Reaches.perform (time : String) (h : Reaches fs.disk request s) :
    (∃ e, fs.write? s.path s.text = .error e ∧
      fs.perform (runRequest fs.disk time request) = (.ofError (.unwritable s.path e), fs)) ∨
    ∃ after, fs.write? s.path s.text = .ok after ∧
      fs.perform (runRequest fs.disk time request) = (commitOutput s.report, after) := by
  rw [runRequest_of_reaches time h, Saving.run, Files.perform]
  cases fs.write? s.path s.text with
  | error e => exact .inl ⟨e, rfl, rfl⟩
  | ok after => exact .inr ⟨after, rfl, rfl⟩

theorem perform_cases (fs : Files) (time : String) (request : Request) :
    (fs.perform (runRequest fs.disk time request)).2 = fs ∨
    ∃ s after, Reaches fs.disk request s ∧ fs.write? s.path s.text = .ok after ∧
      fs.perform (runRequest fs.disk time request) = (commitOutput s.report, after) := by
  rcases runRequest_cases fs.disk time request with ⟨output, hfinished⟩ | ⟨s, hs⟩
  · left
    rw [hfinished]
    rfl
  · rcases hs.perform time with ⟨e, -, hafter⟩ | ⟨after, hwrite, hafter⟩
    · left
      rw [hafter]
    · exact .inr ⟨s, after, hs, hwrite, hafter⟩

theorem exit_commitOutput_ne_one (report : CommitReport) : (commitOutput report).exit ≠ 1 := by
  unfold commitOutput Output.document Output.exitOf
  split <;> simp

/-- A run changes at most the file of its overrides, and only if it is a commit that saves. A run that
fails changes nothing. If the write of a commit that saves fails, so does the run; otherwise the file
has the text of the previous overrides with the value of the commit, and these are loaded from it if
their numbers read back. -/
theorem perform_runRequest (fs : Files) (time : String) (request : Request) :
    let after := fs.perform (runRequest fs.disk time request)
    (after.2 = fs ∨ ∃ s p, Reaches fs.disk request s ∧ fs.locate s.path = .ok p ∧
      ∀ key, key ≠ p.path → after.2.get? key = fs.get? key) ∧
    (after.1.exit = 1 → after.2 = fs) ∧
    ∀ s, Reaches fs.disk request s →
      (∃ e, fs.write? s.path s.text = .error e ∧ after = (.ofError (.unwritable s.path e), fs)) ∨
      (after.1 = commitOutput s.report ∧ after.2.read s.path = .ok s.text ∧
        (Values.NumbersReadBack (s.previous.insert s.id s.value) →
          loadOverrides after.2.disk s.path = .ok (s.previous.insert s.id s.value))) := by
  intro after
  refine ⟨?_, ?_, ?_⟩
  · rcases perform_cases fs time request with hsame | ⟨s, fs', hs, hwrite, hafter⟩
    · exact .inl hsame
    · obtain ⟨p, hlocate, -, -⟩ := Files.write?_eq_ok.1 hwrite
      right
      refine ⟨s, p, hs, hlocate, fun key hkey => ?_⟩
      change after = _ at hafter
      rw [hafter]
      exact Files.get?_of_write? hwrite hlocate hkey
  · intro hexit
    rcases perform_cases fs time request with hsame | ⟨s, fs', -, -, hafter⟩
    · exact hsame
    · change after = _ at hafter
      rw [hafter] at hexit
      exact absurd hexit (exit_commitOutput_ne_one s.report)
  · intro s hs
    rcases hs.perform time with hfails | ⟨fs', hwrite, hafter⟩
    · exact .inl hfails
    · right
      change after = _ at hafter
      rw [hafter]
      exact ⟨rfl, hs.read_of_write? hwrite, hs.loadOverrides_of_write? hwrite⟩

/-- A token file and overrides. -/
def sizeFiles : Files :=
  Files.add (Files.add ∅ "tokens.json" "\x7b\"size\": \x7b\"$value\": 16\x7d\x7d".toUTF8)
    "overrides.json" "\x7b\"size\": 1.5, \"wide\": \"2rem\"\x7d".toUTF8

/-- A command line that commits the size and writes it. -/
def sizeRequest : Request :=
  parseArguments ["-o", "overrides.json", "commit", "--id", "size", "--value", "2.5",
    "--write-overrides"]

theorem reaches_sizeRequest : ∃ previous report,
    Reaches sizeFiles.disk sizeRequest ⟨"overrides.json", previous, "size", .number 2.5, report⟩ ∧
      previous.entries = [("size", .number 1.5), ("wide", .text "2rem")] := by
  have hrequest : sizeRequest =
      .run ⟨⟨none, ["tokens.json"], some "overrides.json"⟩, .commit "size" "2.5" true⟩ := by
    decide +kernel
  have hvalue : valueOfArgument "2.5" = .number 2.5 := by decide +kernel
  have hcommit : (treeOf sizeFiles.disk ⟨none, ["tokens.json"], some "overrides.json"⟩ >>= fun tree =>
      (commitValue RuleSet.empty tree "size" (.number 2.5)).mapError .report).isOk = true := by
    decide +kernel
  obtain ⟨report, hreport⟩ := isOk_iff.1 hcommit
  obtain ⟨tree, htree, hreport⟩ := bind_eq_ok_iff.1 hreport
  rw [mapError_eq_ok_iff, ← hvalue] at hreport
  have hentries : (overridesOf sizeFiles.disk (some "overrides.json")).map (·.entries) =
      .ok [("size", .number 1.5), ("wide", .text "2rem")] := by decide +kernel
  cases hprevious : overridesOf sizeFiles.disk (some "overrides.json") with
  | error e =>
    rw [hprevious] at hentries
    cases hentries
  | ok previous =>
    rw [hprevious] at hentries
    refine ⟨previous, report, ?_, Except.ok.inj hentries⟩
    rw [hrequest, ← hvalue]
    exact .commit rfl rfl htree hreport hprevious

theorem perform_runRequest_size :
    (∃ s, Reaches sizeFiles.disk sizeRequest s) ∧
    (loadOverrides (sizeFiles.perform (runRequest sizeFiles.disk "" sizeRequest)).2.disk
      "overrides.json").map (·.entries) =
        .ok [("size", .number 2.5), ("wide", .text "2rem")] := by
  obtain ⟨previous, report, hreaches, hentries⟩ := reaches_sizeRequest
  have hinsert : (previous.insert "size" (.number 2.5)).entries =
      [("size", .number 2.5), ("wide", .text "2rem")] := by
    show insertEntry "size" (.number 2.5) previous.entries = _
    rw [hentries]
    decide +kernel
  have hnumbers : Values.NumbersReadBack (previous.insert "size" (.number 2.5)) := by
    intro e he
    rw [hinsert] at he
    rcases List.mem_cons.1 he with rfl | he
    · exact ⟨⟨false, ['2'], ['5'], none⟩, by decide +kernel, by decide +kernel⟩
    · rw [List.mem_singleton.1 he]
      trivial
  have hlocate : sizeFiles.locate "overrides.json" = .ok ⟨.above 0, ["overrides.json"]⟩ := by
    decide +kernel
  refine ⟨⟨_, hreaches⟩, ?_⟩
  rcases (perform_runRequest sizeFiles "" sizeRequest).2.2 _ hreaches with
    ⟨e, hwrite, -⟩ | ⟨-, -, hload⟩
  · cases (Files.write?_eq_ok.2 ⟨_, hlocate, by decide +kernel, rfl⟩).symm.trans hwrite
  · have hloaded := hload hnumbers
    rw [hloaded]
    exact congrArg Except.ok hinsert

end DesignTokens
