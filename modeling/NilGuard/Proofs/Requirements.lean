import Mathlib
import NilGuard.Cli.Run
import NilGuard.Proofs.Checked
import NilGuard.Proofs.Logging
import NilGuard.Proofs.Sort
/-! What a run asks for before it has results, and in which order. Its steps up to the check of
the functions fail exactly when a requirement is not met, and then with the error of the first
one. -/
namespace NilGuard.Cli

/-- What a run asks for. -/
inductive Requirement where
  /-- There is at least one worker. -/
  | jobs
  /-- The targets of the command line can be read. -/
  | specifications
  /-- The target file is there and can be read. -/
  | targetFile
  /-- There is a target. -/
  | targets
  /-- All dumps are there. -/
  | dumpsFound
  /-- All dumps load into one program. -/
  | dumpsLoaded
  /-- The targets can be resolved in the program. -/
  | resolution
  deriving DecidableEq, Repr

/-- The requirements in the order in which a run looks at them. -/
def Requirement.all : List Requirement :=
  [jobs, specifications, targetFile, targets, dumpsFound, dumpsLoaded, resolution]

/-- The requirements that come before one. -/
def Requirement.earlier (r : Requirement) : List Requirement := all.takeWhile (· ≠ r)

/-- A target of the command line cannot be read. One whose text was left out cannot either. -/
inductive IsMalformed : Option String → Failure → Prop where
  | noText : IsMalformed none .unexpected
  | text {s : String} {e : TargetError} (h : Target.parse s = .error e) :
      IsMalformed (some s) (.target e)

/-- A file or directory of this name cannot be found. -/
inductive IsMissing (ws : Workspace) (input : Input) (name : String) : Failure → Prop where
  | noPath (h : ws.resolve? name = none) : IsMissing ws input name .unexpected
  | nothing {path : Path} (hPath : ws.resolve? name = some path) (h : ws.look path = .missing) :
      IsMissing ws input name (.notFound input path)
  | tooLong {path : Path} (hPath : ws.resolve? name = some path) (h : ws.look path = .tooLong) :
      IsMissing ws input name .unexpected

/-- A file or directory of this name lies at a path. -/
def IsFound (ws : Workspace) (name : String) (path : Path) : Prop :=
  ws.resolve? name = some path ∧ ∃ entry, ws.look path = .found entry

/-- The name of the target file. An empty name means that there is none. -/
def Options.fileName? (o : Options) : Option String := o.targetFile.filter (· ≠ "")

/-- The targets of the command line. -/
def Names (o : Options) (ts : List Target) : Prop :=
  List.Forall₂ (fun spec t => ∃ text, spec = some text ∧ Target.parse text = .ok t) o.targets ts

/-- The targets of the target file, none if there is no file. -/
inductive Lists (ws : Workspace) (o : Options) : List Target → Prop where
  | noFile (hName : o.fileName? = none) : Lists ws o []
  | file {name contents : String} {path : Path} {ts : List Target}
      (hName : o.fileName? = some name) (hFound : IsFound ws name path)
      (hFile : ws.lookup path = some (.file contents))
      (h : Target.parseFile path.text contents = .ok ts) : Lists ws o ts

/-- The paths of the dumps. -/
def DumpsAt (ws : Workspace) (o : Options) (paths : List Path) : Prop :=
  List.Forall₂ (IsFound ws) o.dumps paths

/-- The files at some paths load into a program, one after the other. -/
def LoadsTo (ws : Workspace) (paths : List Path) (p q : Program) : Prop :=
  ∃ contents, List.Forall₂ (fun path c => ws.lookup path = some (.file c)) paths contents ∧
    p.loadAll? (contents.map Text.fileText) = some q

/-- What is said about a dump that does not load. -/
def Failure.ofLoadError (path : Path) (e : LoadError) : Failure :=
  (e.message? path.text).elim .unexpected .load

/-- A dump is a directory, or it does not load into the program of those before it. -/
inductive IsUnloadable (ws : Workspace) (p : Program) (path : Path) : Failure → Prop where
  | directory (h : ∀ contents, ws.lookup path ≠ some (.file contents)) :
      IsUnloadable ws p path (.dumpIsDirectory path)
  | refused {contents : String} {e : LoadError} (hFile : ws.lookup path = some (.file contents))
      (h : (p.load (Text.fileText contents)).error = some e) :
      IsUnloadable ws p path (.ofLoadError path e)

/-- A target cannot be resolved. -/
def IsRefused (p : Program) (t : Target) (f : Failure) : Prop :=
  ∃ e, t.resolve p = .error e ∧ f = .target e

/-- A requirement is not met, and what is reported about it. -/
inductive Violates (ws : Workspace) (o : Options) : Requirement → Failure → Prop where
  | noNumber (h : o.jobs = none) : Violates ws o .jobs .unexpected
  | tooFew {count : Int} (hJobs : o.jobs = some count) (h : count < 1) :
      Violates ws o .jobs (.jobs count)
  | malformed {f : Failure} (h : First IsMalformed o.targets f) : Violates ws o .specifications f
  | noTargetFile {name : String} {f : Failure} (hName : o.fileName? = some name)
      (h : IsMissing ws .targetFile name f) : Violates ws o .targetFile f
  | targetDirectory {name : String} {path : Path} (hName : o.fileName? = some name)
      (hFound : IsFound ws name path) (h : ∀ contents, ws.lookup path ≠ some (.file contents)) :
      Violates ws o .targetFile .unexpected
  | malformedFile {name contents : String} {path : Path} {e : TargetError}
      (hName : o.fileName? = some name) (hFound : IsFound ws name path)
      (hFile : ws.lookup path = some (.file contents))
      (h : Target.parseFile path.text contents = .error e) :
      Violates ws o .targetFile (.ofTargetError e)
  | noTargets (hNames : Names o []) (hLists : Lists ws o []) : Violates ws o .targets .noTargets
  | noDump {f : Failure} (h : First (IsMissing ws .dump) o.dumps f) : Violates ws o .dumpsFound f
  | unloadable {before after : List Path} {path : Path} {p : Program} {f : Failure}
      (hPaths : DumpsAt ws o (before ++ path :: after)) (hBefore : LoadsTo ws before {} p)
      (h : IsUnloadable ws p path f) : Violates ws o .dumpsLoaded f
  | unresolvable {named listed : List Target} {paths : List Path} {p : Program} {f : Failure}
      (hNames : Names o named) (hLists : Lists ws o listed) (hPaths : DumpsAt ws o paths)
      (hLoads : LoadsTo ws paths {} p) (h : First (IsRefused p) (named ++ listed) f) :
      Violates ws o .resolution f

def IsMet (ws : Workspace) (o : Options) (r : Requirement) : Prop := ∀ f, ¬ Violates ws o r f

/-- The first requirement that is not met, and what is reported about it. -/
structure IsFirstViolation (ws : Workspace) (o : Options) (r : Requirement) (f : Failure) :
    Prop where
  violates : Violates ws o r f
  earlier : ∀ q ∈ r.earlier, IsMet ws o q

section Steps

variable {ws : Workspace} {o : Options} {f : Failure}

theorem result_workers_eq_error_iff (ws : Workspace) :
    (workers o).result = .error f ↔ Violates ws o .jobs f := by
  constructor
  · intro h
    unfold workers at h
    cases hJobs : o.jobs with
    | none =>
        rw [hJobs] at h
        cases h
        exact .noNumber hJobs
    | some count =>
        rw [hJobs] at h
        by_cases hFew : count < 1
        · simp only [if_pos hFew] at h
          cases h
          exact .tooFew hJobs hFew
        · simp only [if_neg hFew] at h
          cases h
  · intro h
    cases h with
    | noNumber h => simp [workers, h, Logged.result_throw]
    | tooFew hJobs h => simp [workers, hJobs, h, Logged.result_throw]

theorem jobs_of_result_workers {jobs : Int} (h : (workers o).result = .ok jobs) :
    o.jobs = some jobs := by
  unfold workers at h
  split at h
  case h_1 => cases h
  case h_2 count hJobs =>
    split at h
    case isTrue => cases h
    case isFalse =>
      cases h
      exact hJobs

theorem result_ofTargets_eq_error_iff {α : Type} {x : Except TargetError α} :
    (ofTargets x).result = .error f ↔ ∃ e, x = .error e ∧ f = .ofTargetError e := by
  cases x <;> simp [ofTargets, Except.mapError, eq_comm]

theorem result_ofTargets_eq_ok_iff {α : Type} {x : Except TargetError α} {a : α} :
    (ofTargets x).result = .ok a ↔ x = .ok a := by
  cases x <;> simp [ofTargets, Except.mapError]

theorem isConfiguration_of_parse {s : String} {e : TargetError} (h : Target.parse s = .error e) :
    e.isConfiguration = true := by
  unfold Target.parse at h
  cases hParse : Target.parseChars s.toList with
  | error fault =>
      rw [hParse] at h
      cases h
      rfl
  | ok t =>
      rw [hParse] at h
      cases h

theorem ofTargetError_eq {e : TargetError} (h : e.isConfiguration = true) :
    Failure.ofTargetError e = .target e := by
  rw [Failure.ofTargetError, if_pos h]

theorem result_namedTarget_eq_error_iff {spec : Option String} :
    (namedTarget spec).result = .error f ↔ IsMalformed spec f := by
  cases spec with
  | none =>
      constructor
      · intro h
        cases h
        exact .noText
      · intro h
        cases h
        rfl
  | some s =>
      rw [namedTarget, result_ofTargets_eq_error_iff]
      constructor
      · rintro ⟨e, hParse, rfl⟩
        rw [ofTargetError_eq (isConfiguration_of_parse hParse)]
        exact .text hParse
      · intro h
        cases h with
        | text hParse =>
            exact ⟨_, hParse, (ofTargetError_eq (isConfiguration_of_parse hParse)).symm⟩

theorem result_namedTarget_eq_ok_iff {spec : Option String} {t : Target} :
    (namedTarget spec).result = .ok t ↔ ∃ text, spec = some text ∧ Target.parse text = .ok t := by
  cases spec with
  | none => simp [namedTarget, Logged.result_throw]
  | some s => simp [namedTarget, result_ofTargets_eq_ok_iff]

theorem result_locate_eq_error_iff {input : Input} {name : String} :
    (locate ws input name).result = .error f ↔ IsMissing ws input name f := by
  unfold locate
  constructor
  · intro h
    cases hPath : ws.resolve? name with
    | none =>
        rw [hPath] at h
        cases h
        exact .noPath hPath
    | some path =>
        rw [hPath] at h
        cases hLook : ws.look path with
        | missing =>
            simp only [hLook] at h
            cases h
            exact .nothing hPath hLook
        | tooLong =>
            simp only [hLook] at h
            cases h
            exact .tooLong hPath hLook
        | found entry =>
            simp only [hLook] at h
            cases h
  · intro h
    cases h with
    | noPath h => simp [h, Logged.result_throw]
    | nothing hPath h => simp [hPath, h, Logged.result_throw]
    | tooLong hPath h => simp [hPath, h, Logged.result_throw]

theorem result_locate_eq_ok_iff {input : Input} {name : String} {path : Path} :
    (locate ws input name).result = .ok path ↔ IsFound ws name path := by
  unfold locate IsFound
  cases hPath : ws.resolve? name with
  | none => simp [Logged.result_throw]
  | some p =>
      simp only [Option.some.injEq]
      constructor
      · intro h
        cases hLook : ws.look p with
        | found entry =>
            simp only [hLook] at h
            cases h
            exact ⟨rfl, entry, hLook⟩
        | missing =>
            simp only [hLook] at h
            cases h
        | tooLong =>
            simp only [hLook] at h
            cases h
      · rintro ⟨rfl, entry, hLook⟩
        simp [hLook]

/-- Reads the targets of the file at a path. -/
def readTargets (ws : Workspace) (path : Path) : Step (List Target) :=
  match ws.lookup path with
  | some (.file contents) => do
    let targets ← ofTargets (Target.parseFile path.text contents)
    log .debug .targets ("Loaded " ++ toString targets.length ++ " target(s) from " ++ path.text)
    return targets
  | _ => throw .unexpected

theorem fileTargets_of_none (hName : o.fileName? = none) : fileTargets ws o = pure [] := by
  unfold Options.fileName? at hName
  unfold fileTargets
  cases hFile : o.targetFile with
  | none => rfl
  | some name =>
      rw [hFile] at hName
      obtain rfl : name = "" := by simpa using hName
      rfl

theorem fileTargets_of_some {name : String} (hName : o.fileName? = some name) :
    fileTargets ws o = locate ws .targetFile name >>= readTargets ws := by
  obtain ⟨hFile, hNonempty⟩ := Option.filter_eq_some_iff.mp hName
  have hNe : name ≠ "" := by simpa using hNonempty
  unfold fileTargets
  rw [hFile]
  split
  case h_1 h => cases h
  case h_2 h => exact absurd (Option.some.inj h) hNe
  case h_3 h =>
    cases h
    rfl

theorem result_readTargets_of_file {path : Path} {contents : String}
    (hFile : ws.lookup path = some (.file contents)) :
    (readTargets ws path).result = (ofTargets (Target.parseFile path.text contents)).result := by
  rw [readTargets, hFile]
  exact Logged.result_bind_log _ _

theorem result_readTargets_of_directory {path : Path}
    (h : ∀ contents, ws.lookup path ≠ some (.file contents)) :
    (readTargets ws path).result = .error .unexpected := by
  rw [readTargets]
  split
  case h_1 contents hFile => exact absurd hFile (h contents)
  case h_2 => rfl

theorem result_fileTargets_eq_error_iff :
    (fileTargets ws o).result = .error f ↔ Violates ws o .targetFile f := by
  constructor
  · intro h
    cases hName : o.fileName? with
    | none =>
        rw [fileTargets_of_none hName] at h
        cases h
    | some name =>
        rw [fileTargets_of_some hName, Logged.result_bind_eq_error_iff] at h
        rcases h with hMissing | ⟨path, hPath, hRead⟩
        · exact .noTargetFile hName (result_locate_eq_error_iff.mp hMissing)
        · have hFound := result_locate_eq_ok_iff.mp hPath
          by_cases hFile : ∃ contents, ws.lookup path = some (.file contents)
          · obtain ⟨contents, hFile⟩ := hFile
            rw [result_readTargets_of_file hFile, result_ofTargets_eq_error_iff] at hRead
            obtain ⟨e, hParse, rfl⟩ := hRead
            exact .malformedFile hName hFound hFile hParse
          · have hNoFile := not_exists.mp hFile
            rw [result_readTargets_of_directory hNoFile] at hRead
            cases hRead
            exact .targetDirectory hName hFound hNoFile
  · intro h
    cases h with
    | noTargetFile hName h =>
        rw [fileTargets_of_some hName, Logged.result_bind_eq_error_iff]
        exact .inl (result_locate_eq_error_iff.mpr h)
    | targetDirectory hName hFound h =>
        rw [fileTargets_of_some hName, Logged.result_bind_eq_error_iff]
        exact .inr ⟨_, result_locate_eq_ok_iff.mpr hFound, result_readTargets_of_directory h⟩
    | malformedFile hName hFound hFile h =>
        rw [fileTargets_of_some hName, Logged.result_bind_eq_error_iff]
        refine .inr ⟨_, result_locate_eq_ok_iff.mpr hFound, ?_⟩
        rw [result_readTargets_of_file hFile, result_ofTargets_eq_error_iff]
        exact ⟨_, h, rfl⟩

theorem result_fileTargets_eq_ok_iff {ts : List Target} :
    (fileTargets ws o).result = .ok ts ↔ Lists ws o ts := by
  constructor
  · intro h
    cases hName : o.fileName? with
    | none =>
        rw [fileTargets_of_none hName] at h
        cases h
        exact .noFile hName
    | some name =>
        rw [fileTargets_of_some hName, Logged.result_bind_eq_ok_iff] at h
        obtain ⟨path, hPath, hRead⟩ := h
        by_cases hFile : ∃ contents, ws.lookup path = some (.file contents)
        · obtain ⟨contents, hFile⟩ := hFile
          rw [result_readTargets_of_file hFile, result_ofTargets_eq_ok_iff] at hRead
          exact .file hName (result_locate_eq_ok_iff.mp hPath) hFile hRead
        · rw [result_readTargets_of_directory (not_exists.mp hFile)] at hRead
          cases hRead
  · intro h
    cases h with
    | noFile hName =>
        rw [fileTargets_of_none hName]
        rfl
    | file hName hFound hFile h =>
        rw [fileTargets_of_some hName, Logged.result_bind_eq_ok_iff]
        refine ⟨_, result_locate_eq_ok_iff.mpr hFound, ?_⟩
        rw [result_readTargets_of_file hFile, result_ofTargets_eq_ok_iff]
        exact h

theorem result_named_eq_error_iff :
    (o.targets.mapM namedTarget).result = .error f ↔ Violates ws o .specifications f := by
  rw [Logged.result_mapM_eq_error_iff fun _ _ => result_namedTarget_eq_error_iff]
  constructor
  · exact .malformed
  · intro h
    cases h with
    | malformed h => exact h

theorem result_named_eq_ok_iff {ts : List Target} :
    (o.targets.mapM namedTarget).result = .ok ts ↔ Names o ts :=
  Logged.result_mapM_eq_ok_iff fun _ _ => result_namedTarget_eq_ok_iff

theorem result_dumps_eq_error_iff :
    (o.dumps.mapM (locate ws .dump)).result = .error f ↔ Violates ws o .dumpsFound f := by
  rw [Logged.result_mapM_eq_error_iff fun _ _ => result_locate_eq_error_iff]
  constructor
  · exact .noDump
  · intro h
    cases h with
    | noDump h => exact h

theorem result_dumps_eq_ok_iff {paths : List Path} :
    (o.dumps.mapM (locate ws .dump)).result = .ok paths ↔ DumpsAt ws o paths :=
  Logged.result_mapM_eq_ok_iff fun _ _ => result_locate_eq_ok_iff

theorem Names.unique {ts us : List Target} (hFirst : Names o ts) (hSecond : Names o us) : ts = us :=
  Logged.eq_of_result_eq_ok_iff result_named_eq_ok_iff hFirst hSecond

theorem Lists.unique {ts us : List Target} (hFirst : Lists ws o ts) (hSecond : Lists ws o us) :
    ts = us :=
  Logged.eq_of_result_eq_ok_iff result_fileTargets_eq_ok_iff hFirst hSecond

theorem DumpsAt.unique {ps qs : List Path} (hFirst : DumpsAt ws o ps) (hSecond : DumpsAt ws o qs) :
    ps = qs :=
  Logged.eq_of_result_eq_ok_iff result_dumps_eq_ok_iff hFirst hSecond

theorem violates_targets_iff {named listed : List Target} (hNames : Names o named)
    (hLists : Lists ws o listed) :
    Violates ws o .targets f ↔ named ++ listed = [] ∧ f = .noTargets := by
  constructor
  · intro h
    cases h with
    | noTargets hNone hEmpty =>
        rw [hNames.unique hNone, hLists.unique hEmpty]
        exact ⟨rfl, rfl⟩
  · rintro ⟨hEmpty, rfl⟩
    obtain ⟨rfl, rfl⟩ := List.append_eq_nil_iff.mp hEmpty
    exact .noTargets hNames hLists

theorem result_loadDump_of_file {p : Program} {path : Path} {contents : String}
    (hFile : ws.lookup path = some (.file contents)) :
    (loadDump ws p path).result =
      (p.load (Text.fileText contents)).error.elim (.ok (p.load (Text.fileText contents)).program)
        fun e => .error (.ofLoadError path e) := by
  simp only [loadDump, hFile, log, Logged.result_bind, Logged.result_log]
  cases hError : (p.load (Text.fileText contents)).error with
  | none => rfl
  | some e =>
      simp only [Option.elim_some, Failure.ofLoadError]
      cases hMessage : e.message? path.text <;> rfl

theorem result_loadDump_of_directory {p : Program} {path : Path}
    (h : ∀ contents, ws.lookup path ≠ some (.file contents)) :
    (loadDump ws p path).result = .error (.dumpIsDirectory path) := by
  simp only [loadDump, log, Logged.result_bind, Logged.result_log]
  cases hEntry : ws.lookup path with
  | none => rfl
  | some entry =>
      cases entry with
      | file contents => exact absurd hEntry (h contents)
      | directory => rfl

theorem result_loadDump_eq_error_iff {p : Program} {path : Path} :
    (loadDump ws p path).result = .error f ↔ IsUnloadable ws p path f := by
  constructor
  · intro h
    by_cases hFile : ∃ contents, ws.lookup path = some (.file contents)
    · obtain ⟨contents, hFile⟩ := hFile
      rw [result_loadDump_of_file hFile] at h
      cases hError : (p.load (Text.fileText contents)).error with
      | none =>
          rw [hError] at h
          cases h
      | some e =>
          rw [hError] at h
          cases h
          exact .refused hFile hError
    · have hNoFile := not_exists.mp hFile
      rw [result_loadDump_of_directory hNoFile] at h
      cases h
      exact .directory hNoFile
  · intro h
    cases h with
    | directory h => exact result_loadDump_of_directory h
    | refused hFile hError => rw [result_loadDump_of_file hFile, hError, Option.elim_some]

theorem result_foldlM_loadDump_eq_ok_iff {p q : Program} {paths : List Path} :
    (paths.foldlM (loadDump ws) p).result = .ok q ↔ LoadsTo ws paths p q := by
  induction paths generalizing p with
  | nil => simp [LoadsTo, Program.loadAll?]
  | cons path paths ih =>
      rw [List.foldlM_cons, Logged.result_bind_eq_ok_iff]
      constructor
      · rintro ⟨next, hNext, hRest⟩
        obtain ⟨contents, hContents, hLoad⟩ := ih.mp hRest
        by_cases hFile : ∃ c, ws.lookup path = some (.file c)
        · obtain ⟨c, hFile⟩ := hFile
          rw [result_loadDump_of_file hFile] at hNext
          cases hError : (p.load (Text.fileText c)).error with
          | some e =>
              rw [hError] at hNext
              cases hNext
          | none =>
              rw [hError] at hNext
              cases hNext
              refine ⟨c :: contents, .cons hFile hContents, ?_⟩
              rw [List.map_cons, Program.loadAll?, hError]
              exact hLoad
        · rw [result_loadDump_of_directory (not_exists.mp hFile)] at hNext
          cases hNext
      · rintro ⟨contents, hContents, hLoad⟩
        obtain ⟨c, rest, hFile, hRest, rfl⟩ := List.forall₂_cons_left_iff.mp hContents
        rw [List.map_cons, Program.loadAll?] at hLoad
        cases hError : (p.load (Text.fileText c)).error with
        | some e =>
            rw [hError] at hLoad
            cases hLoad
        | none =>
            rw [hError] at hLoad
            refine ⟨(p.load (Text.fileText c)).program, ?_, ih.mpr ⟨rest, hRest, hLoad⟩⟩
            rw [result_loadDump_of_file hFile, hError, Option.elim_none]

theorem LoadsTo.unique {p q r : Program} {paths : List Path} (hFirst : LoadsTo ws paths p q)
    (hSecond : LoadsTo ws paths p r) : q = r :=
  Logged.eq_of_result_eq_ok_iff result_foldlM_loadDump_eq_ok_iff hFirst hSecond

theorem result_foldlM_loadDump_eq_error_iff {paths : List Path} (hPaths : DumpsAt ws o paths) :
    (paths.foldlM (loadDump ws) {}).result = .error f ↔ Violates ws o .dumpsLoaded f := by
  rw [Logged.result_foldlM_eq_error_iff]
  constructor
  · rintro ⟨before, path, after, p, rfl, hBefore, h⟩
    exact .unloadable hPaths (result_foldlM_loadDump_eq_ok_iff.mp hBefore)
      (result_loadDump_eq_error_iff.mp h)
  · intro h
    cases h with
    | unloadable hSplit hBefore h =>
        exact ⟨_, _, _, _, hPaths.unique hSplit, result_foldlM_loadDump_eq_ok_iff.mpr hBefore,
          result_loadDump_eq_error_iff.mpr h⟩

theorem isConfiguration_of_resolve {p : Program} {t : Target} {e : TargetError}
    (h : t.resolve p = .error e) : e.isConfiguration = true := by
  unfold Target.resolve at h
  split at h
  case isTrue =>
    cases h
    rfl
  case isFalse =>
    split at h
    case h_1 =>
      split at h
      case h_3 =>
        cases h
        rfl
      all_goals cases h
    case h_2 =>
      split at h
      case h_1 => cases h
      case h_2 => split at h <;> cases h
    case h_3 =>
      cases h
      rfl

theorem result_resolveTarget (p : Program) (t : Target) :
    (resolveTarget p t).result = (ofTargets (t.resolve p)).result :=
  Logged.result_bind_log _ _

theorem result_resolveTarget_eq_error_iff {p : Program} {t : Target} :
    (resolveTarget p t).result = .error f ↔ IsRefused p t f := by
  rw [result_resolveTarget, result_ofTargets_eq_error_iff, IsRefused]
  constructor
  · rintro ⟨e, hResolve, rfl⟩
    exact ⟨e, hResolve, ofTargetError_eq (isConfiguration_of_resolve hResolve)⟩
  · rintro ⟨e, hResolve, rfl⟩
    exact ⟨e, hResolve, (ofTargetError_eq (isConfiguration_of_resolve hResolve)).symm⟩

theorem result_resolveTarget_eq_ok_iff {p : Program} {t : Target} {r : Resolution} :
    (resolveTarget p t).result = .ok r ↔ t.resolve p = .ok r := by
  rw [result_resolveTarget, result_ofTargets_eq_ok_iff]

theorem result_resolveTargets_eq_error_iff {p : Program} {ts : List Target} :
    (resolveTargets p ts).result = .error f ↔ First (IsRefused p) ts f := by
  rw [resolveTargets, Logged.result_bind_eq_error_iff,
    Logged.result_mapM_eq_error_iff fun _ _ => result_resolveTarget_eq_error_iff]
  simp only [log, Logged.result_bind, Logged.result_log, Logged.result_pure]
  constructor
  · rintro (h | ⟨rs, -, h⟩)
    · exact h
    · cases h
  · exact .inl

theorem mapM_resolve_of_forall₂ {p : Program} {ts : List Target} {rs : List Resolution}
    (h : List.Forall₂ (fun t r => t.resolve p = .ok r) ts rs) :
    ts.mapM (Target.resolve p) = .ok rs := by
  induction h with
  | nil => rfl
  | cons hResolve _ ih =>
      rw [List.mapM_cons, hResolve, ih]
      rfl

theorem resolveAll_of_result {p : Program} {ts : List Target} {resolved : List ResolvedTarget}
    (h : (resolveTargets p ts).result = .ok resolved) : Target.resolveAll p ts = .ok resolved := by
  rw [resolveTargets, Logged.result_bind_eq_ok_iff] at h
  obtain ⟨rs, hEach, h⟩ := h
  cases h
  rw [Target.resolveAll, mapM_resolve_of_forall₂ ((Logged.result_mapM_eq_ok_iff
    fun _ _ => result_resolveTarget_eq_ok_iff).mp hEach)]
  rfl

theorem result_resolveTargets_eq_violates_iff {named listed : List Target} {paths : List Path}
    {p : Program} (hNames : Names o named) (hLists : Lists ws o listed)
    (hPaths : DumpsAt ws o paths) (hLoads : LoadsTo ws paths {} p) :
    (resolveTargets p (named ++ listed)).result = .error f ↔ Violates ws o .resolution f := by
  rw [result_resolveTargets_eq_error_iff]
  constructor
  · exact .unresolvable hNames hLists hPaths hLoads
  · intro h
    cases h with
    | unresolvable hNames' hLists' hPaths' hLoads' h =>
        obtain rfl := hPaths.unique hPaths'
        rwa [hNames.unique hNames', hLists.unique hLists', hLoads.unique hLoads']

end Steps

/-- All steps of a run up to the check of the functions. -/
def prepare (ws : Workspace) (o : Options) : Step (Int × Program × List ResolvedTarget) := do
  let jobs ← workers o
  let targets ← collectTargets ws o
  let program ← loadDumps ws o
  let resolved ← resolveTargets program targets
  return (jobs, program, resolved)

/-- What a run has before it checks the functions. -/
structure IsPrepared (ws : Workspace) (o : Options) (targets : List Target) (p : Program) :
    Prop where
  targets : ∃ named listed, Names o named ∧ Lists ws o listed ∧ targets = named ++ listed
  program : ∃ paths, DumpsAt ws o paths ∧ LoadsTo ws paths {} p

section Prepare

variable {ws : Workspace} {o : Options} {f : Failure}

/-- The targets of a run, if there are any. -/
def someTargets (ts : List Target) : Step (List Target) :=
  .ofExcept (if ts = [] then .error .noTargets else .ok ts)

theorem collectTargets_eq (ws : Workspace) (o : Options) : collectTargets ws o = (do
    let named ← o.targets.mapM namedTarget
    let listed ← fileTargets ws o
    someTargets (named ++ listed)) := by
  unfold collectTargets
  congr 1
  funext named
  congr 1
  funext listed
  cases named ++ listed <;> rfl

theorem result_someTargets_eq_error_iff {named listed : List Target} (hNames : Names o named)
    (hLists : Lists ws o listed) :
    (someTargets (named ++ listed)).result = .error f ↔ Violates ws o .targets f := by
  rw [violates_targets_iff hNames hLists, someTargets, Logged.result_ofExcept]
  by_cases hEmpty : named ++ listed = [] <;> simp [hEmpty, eq_comm]

theorem eq_of_result_someTargets {ts us : List Target} (h : (someTargets ts).result = .ok us) :
    us = ts := by
  rw [someTargets, Logged.result_ofExcept] at h
  split at h
  case isTrue => cases h
  case isFalse =>
    cases h
    rfl

/-- There is one step for each requirement, and they come in the order of the requirements. -/
theorem prepare_eq (ws : Workspace) (o : Options) : prepare ws o = (do
    let jobs ← workers o
    let named ← o.targets.mapM namedTarget
    let listed ← fileTargets ws o
    let targets ← someTargets (named ++ listed)
    let paths ← o.dumps.mapM (locate ws .dump)
    let program ← paths.foldlM (loadDump ws) {}
    let resolved ← resolveTargets program targets
    return (jobs, program, resolved)) := by
  simp only [prepare, collectTargets_eq, loadDumps, bind_assoc]

/-- What a step does once some requirements are met: it fails with the first of the others that
is not met, or all are met and its result is as it should be. -/
def Settles {α : Type} (ws : Workspace) (o : Options) (met : List Requirement) (x : Step α)
    (Q : α → Prop) : Prop :=
  (∀ q ∈ met, IsMet ws o q) →
    (∀ f, x.result = .error f → ∃ r, IsFirstViolation ws o r f) ∧
    ∀ a, x.result = .ok a → (∀ r, IsMet ws o r) ∧ Q a

theorem settles_pure {α : Type} {a : α} {Q : α → Prop} (h : Q a) :
    Settles ws o Requirement.all (pure a) Q := by
  intro hMet
  constructor
  · intro f hFail
    cases hFail
  · intro b hOk
    cases hOk
    refine ⟨fun r => hMet r ?_, h⟩
    cases r <;> decide

/-- The step of a requirement comes before those of the later ones. -/
theorem Settles.bind {α β : Type} {r : Requirement} {x : Step α} {s : α → Step β} {Q : β → Prop}
    (hError : ∀ f, x.result = .error f ↔ Violates ws o r f)
    (hRest : ∀ a, x.result = .ok a → Settles ws o (r.earlier ++ [r]) (s a) Q) :
    Settles ws o r.earlier (x >>= s) Q := by
  intro hMet
  cases hx : x.result with
  | error e =>
      rw [Logged.bind_of_error hx]
      constructor
      · intro f hFail
        cases hFail
        exact ⟨r, (hError e).mp hx, hMet⟩
      · intro b hOk
        cases hOk
  | ok a =>
      have hNext : ∀ q ∈ r.earlier ++ [r], IsMet ws o q := by
        intro q hq
        rcases List.mem_append.mp hq with hq | hq
        · exact hMet q hq
        · rw [List.mem_singleton.mp hq]
          intro f hf
          rw [(hError f).mpr hf] at hx
          cases hx
      rw [Logged.bind_of_ok hx]
      exact hRest a hx hNext

theorem settles_prepare (ws : Workspace) (o : Options) :
    Settles ws o [] (prepare ws o) fun x => o.jobs = some x.1 ∧
      ∃ targets, IsPrepared ws o targets x.2.1 ∧
        Target.resolveAll x.2.1 targets = .ok x.2.2 := by
  rw [prepare_eq]
  -- what a step gave is what the iff of the next one needs to know
  refine Settles.bind (r := .jobs) (fun _ => result_workers_eq_error_iff ws) fun jobs hJobs => ?_
  refine Settles.bind (r := .specifications) (fun _ => result_named_eq_error_iff)
    fun named hNamed => ?_
  have hNames := result_named_eq_ok_iff.mp hNamed
  refine Settles.bind (r := .targetFile) (fun _ => result_fileTargets_eq_error_iff)
    fun listed hListed => ?_
  have hLists := result_fileTargets_eq_ok_iff.mp hListed
  refine Settles.bind (r := .targets) (fun _ => result_someTargets_eq_error_iff hNames hLists)
    fun targets hTargets => ?_
  obtain rfl := eq_of_result_someTargets hTargets
  refine Settles.bind (r := .dumpsFound) (fun _ => result_dumps_eq_error_iff) fun paths hFound => ?_
  have hPaths := result_dumps_eq_ok_iff.mp hFound
  refine Settles.bind (r := .dumpsLoaded) (fun _ => result_foldlM_loadDump_eq_error_iff hPaths)
    fun p hLoaded => ?_
  have hLoads := result_foldlM_loadDump_eq_ok_iff.mp hLoaded
  refine Settles.bind (r := .resolution)
    (fun _ => result_resolveTargets_eq_violates_iff hNames hLists hPaths hLoads)
    fun resolved hResolved => ?_
  exact settles_pure ⟨jobs_of_result_workers hJobs, named ++ listed,
    ⟨⟨named, listed, hNames, hLists, rfl⟩, paths, hPaths, hLoads⟩, resolveAll_of_result hResolved⟩

/-- What is reported about a requirement is fixed by the step that looks at it. -/
theorem Violates.unique {r : Requirement} {g : Failure} (hf : Violates ws o r f)
    (hg : Violates ws o r g) : f = g := by
  have hStep : ∀ {α : Type} {x : Step α},
      (∀ {e}, x.result = .error e ↔ Violates ws o r e) → f = g :=
    fun hError => Logged.eq_of_result_eq_error_iff hError hf hg
  cases r with
  | jobs => exact hStep (result_workers_eq_error_iff ws)
  | specifications => exact hStep result_named_eq_error_iff
  | targetFile => exact hStep result_fileTargets_eq_error_iff
  | targets =>
      cases hf with
      | noTargets hNames hLists => exact hStep (result_someTargets_eq_error_iff hNames hLists)
  | dumpsFound => exact hStep result_dumps_eq_error_iff
  | dumpsLoaded =>
      cases hf with
      | unloadable hPaths => exact hStep (result_foldlM_loadDump_eq_error_iff hPaths)
  | resolution =>
      cases hf with
      | unresolvable hNames hLists hPaths hLoads =>
          exact hStep (result_resolveTargets_eq_violates_iff hNames hLists hPaths hLoads)

theorem IsFirstViolation.unique {q r : Requirement} {g : Failure} (hf : IsFirstViolation ws o q f)
    (hg : IsFirstViolation ws o r g) : q = r ∧ f = g := by
  have hOrder : q = r ∨ q ∈ r.earlier ∨ r ∈ q.earlier := by
    cases q <;> cases r <;> decide
  rcases hOrder with rfl | hEarlier | hEarlier
  · exact ⟨rfl, hf.violates.unique hg.violates⟩
  · exact absurd hf.violates (hg.earlier q hEarlier f)
  · exact absurd hg.violates (hf.earlier r hEarlier g)

theorem result_prepare_eq_error_iff :
    (prepare ws o).result = .error f ↔ ∃ r, IsFirstViolation ws o r f := by
  obtain ⟨hFails, hEnds⟩ := settles_prepare ws o (by simp)
  constructor
  · exact hFails f
  · rintro ⟨r, hFirst⟩
    cases hResult : (prepare ws o).result with
    | error g =>
        obtain ⟨q, hOther⟩ := hFails g hResult
        rw [(hOther.unique hFirst).2]
    | ok x => exact absurd hFirst.violates ((hEnds x hResult).1 r f)

theorem exists_isFirstViolation {r : Requirement} (h : Violates ws o r f) :
    ∃ q g, IsFirstViolation ws o q g := by
  cases hResult : (prepare ws o).result with
  | error g =>
      obtain ⟨q, hFirst⟩ := result_prepare_eq_error_iff.mp hResult
      exact ⟨q, g, hFirst⟩
  | ok x => exact absurd h (((settles_prepare ws o (by simp)).2 x hResult).1 r f)

end Prepare

end NilGuard.Cli
