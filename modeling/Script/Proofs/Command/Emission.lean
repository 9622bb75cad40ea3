/-
# Emitted documents

A source without errors can be written down as a document, and running that document is running the
source: the same is printed, traced and reported, and the same names are left.  So it makes no
difference to a command whether it is given a source or the document that was emitted for it
(`Command.emitted_runs_alike`).
-/
import Script.Proofs.Command.Files
import Script.Proofs.Document.RoundTrip
import Script.Proofs.Run.Sessions

namespace Script

/-! ## 1. Sessions -/

namespace Session

/-- With one reporter for everything, a source without errors is run like its statements. -/
theorem runSource_eq_runStatements {limits : Limits} {source : String}
    (h : (Program.ofSource limits.nesting source).errors = []) (clock : Nat → Float) {s : Session}
    (hinner : s.inner = .shared) :
    s.runSource limits clock source =
      s.runStatements limits clock (Program.ofSource limits.nesting source).statements := by
  -- the machine's reporter is the session's, so that there is nothing left to report
  have hshared : ∀ (es : List RuntimeError) (m : Machine),
      { s.reportAllInner es with machine := m }.reportAllOuter es =
        { s.reportAllInner es with machine := m } := fun es m => by
    simp only [reportAllOuter, reportAllInner, hinner]
  rw [runSource_eq limits h, ranSource_pass, runStatements_eq]
  simp only [reportRan_eq, reportAllInner_with, hshared, ite_self]

end Session

/-! ## 2. Emitting -/

namespace Command

/-- A source that is read stands at its path, with a name that ends as it should. -/
theorem readSource_ok {look : Path → Entry} {p : Path} {source : String}
    (h : readSource look p = .ok source) :
    p.suffix = sourceSuffix ∧ ∃ bytes, look p = .file bytes := by
  unfold readSource at h
  split at h
  · rename_i hsuffix
    refine ⟨hsuffix, ?_⟩
    unfold readText at h
    split at h
    · cases h
    · cases h
    · cases h
    · rename_i bytes hlook
      exact ⟨bytes, hlook⟩
  · cases h

/-- What emitting does if it succeeds. -/
theorem emit_eq {limits : Limits} {look : Path → Entry} {p : Path} {source : String}
    (hsource : readSource look p = .ok source)
    (herrors : (Program.ofSource limits.nesting source).errors = [])
    (hexit : (emit limits look p).exit = 0) :
    look (documentFile p) ≠ .tooLong ∧ look (documentFile p) ≠ .directory ∧
      (emit limits look p).writes = [(documentFile p,
        (Document.ofProgram (Program.ofSource limits.nesting source).statements).toText)] := by
  simp only [emit, hsource, herrors, List.isEmpty_nil, Bool.not_true, Bool.false_eq_true,
    if_false] at hexit ⊢
  cases hlook : look (documentFile p) with
  | directory => simp [hlook, Transcript.broken] at hexit
  | tooLong => simp [hlook, Transcript.broken] at hexit
  | absent => exact ⟨by rintro ⟨⟩, by rintro ⟨⟩, rfl⟩
  | file bytes => exact ⟨by rintro ⟨⟩, by rintro ⟨⟩, rfl⟩

/-- The last name of a source is not the one that leads back. -/
theorem names_of_suffix {p : Path} (h : p.suffix = sourceSuffix) :
    ∃ names last, p = ⟨p.root, names ++ [last]⟩ ∧ last ≠ ".." := by
  obtain ⟨root, names⟩ := p
  rcases List.eq_nil_or_concat names with rfl | ⟨names, last, rfl⟩
  · have hsuffix : Path.suffix ⟨root, []⟩ = "" := rfl
    rw [hsuffix] at h
    exact absurd h (by decide)
  · rw [List.concat_eq_append] at h ⊢
    refine ⟨names, last, rfl, ?_⟩
    rintro rfl
    have hname : Path.name ⟨root, names ++ [".."]⟩ = ".." := by simp [Path.name]
    rw [Path.suffix, hname] at h
    exact absurd h (by decide)

/-- Beside a source its document can be written, unless its path is too long or a directory stands
there. -/
theorem writable_documentFile {folder : Folder} {p : Path} {source : String}
    (hsource : readSource folder.look p = .ok source)
    (hlong : folder.look (documentFile p) ≠ .tooLong)
    (hdirectory : folder.look (documentFile p) ≠ .directory) :
    ∃ below last, folder.Writable (documentFile p) below last := by
  obtain ⟨hsuffix, bytes, hfile⟩ := readSource_ok hsource
  obtain ⟨names, last, hp, hlast⟩ := names_of_suffix hsuffix
  have htarget : documentFile p = ⟨p.root, names ++ [last ++ ".ast.json"]⟩ := by
    rw [hp]
    simp [documentFile, Path.extend, Path.name]
  have hlast' : last ++ ".ast.json" ≠ ".." := by
    intro heq
    have hlength := congrArg (·.toList.length) heq
    simp at hlength
  have hzero : (last ++ ".ast.json").contains '\x00' = false := by
    have hfree := (Folder.pass_of_file hlast (hp ▸ hfile)).1
    simp only [List.any_append, List.any_cons, List.any_nil, Bool.or_false,
      Bool.or_eq_false_iff] at hfree
    simpa using hfree.2
  rw [htarget] at hlong hdirectory ⊢
  obtain ⟨below, h⟩ := Folder.writable_beside hlast (hp ▸ hfile) hlast' hzero hlong hdirectory
  exact ⟨below, _, h⟩

/-! ## 3. Running what was emitted -/

/-- The folder that a command leaves. -/
def leaves (folder : Folder) (t : Transcript) : Folder :=
  t.writes.foldl (fun folder (p, text) => folder.write p text) folder

theorem traceBlocked_iff {look : Path → Entry} {level : Nat} :
    traceBlocked look level = true ↔ 0 < level ∧ look traceFile = .directory := by
  rw [traceBlocked, Bool.and_eq_true, decide_eq_true_eq]
  refine and_congr_right fun _ => ?_
  cases look traceFile <;> simp

/-- The document that was emitted is found where it is looked for. -/
theorem readDocument_emitted {limits : Limits} {folder : Folder} {p : Path} {source : String}
    (hsource : readSource folder.look p = .ok source)
    (herrors : (Program.ofSource limits.nesting source).errors = [])
    (hexit : (emit limits folder.look p).exit = 0)
    (hkept : ∀ t ∈ (scan source).tokens, t.Kept) :
    readDocument (leaves folder (emit limits folder.look p)).look (documentFile p) =
      .ok (Program.ofSource limits.nesting source).statements ∧
    ∀ level, traceBlocked (leaves folder (emit limits folder.look p)).look level =
      traceBlocked folder.look level := by
  obtain ⟨hlong, hdirectory, hwrites⟩ := emit_eq hsource herrors hexit
  obtain ⟨below, last, hwritable⟩ := writable_documentFile hsource hlong hdirectory
  have hleaves : leaves folder (emit limits folder.look p) = folder.write (documentFile p)
      (Document.ofProgram (Program.ofSource limits.nesting source).statements).toText := by
    rw [leaves, hwrites]
    rfl
  rw [hleaves]
  constructor
  · rw [readDocument, readText, hwritable.look_write]
    have hstorable := ofSource_storable limits.nesting (written_of_kept hkept)
    simp only [Datum.ofBytes?_toText, bind, Except.bind, Document.ofText_ofProgram hstorable,
      Document.toProgram_ofProgram hstorable]
  · intro level
    rw [Bool.eq_iff_iff, traceBlocked_iff, traceBlocked_iff, hwritable.look_write_directory]

theorem runDocument_emitted {limits : Limits} {folder : Folder} {p : Path} {source : String}
    (hsource : readSource folder.look p = .ok source)
    (herrors : (Program.ofSource limits.nesting source).errors = [])
    (hexit : (emit limits folder.look p).exit = 0)
    (hkept : ∀ t ∈ (scan source).tokens, t.Kept) (clock : Nat → Float) (level : Nat) :
    runDocument limits clock (leaves folder (emit limits folder.look p)).look level
      (documentFile p) = runProgram limits clock folder.look level p := by
  obtain ⟨hread, hblocked⟩ := readDocument_emitted hsource herrors hexit hkept
  have hrun := Session.runSource_eq_runStatements herrors clock (s := newSession level) rfl
  rw [runDocument, runProgram, hread, hsource]
  simp only [hblocked, hrun]

/-- How running a source without errors may end: the trace cannot be written, the steps are used
up, or it comes to its end, and then the exit status tells whether there were errors. -/
theorem runProgram_exit {limits : Limits} {look : Path → Entry} {p : Path} {source : String}
    (hsource : readSource look p = .ok source)
    (herrors : (Program.ofSource limits.nesting source).errors = []) (clock : Nat → Float)
    (level : Nat) :
    let t := runProgram limits clock look level p
    traceBlocked look level = true ∨ t.failure = some (.stopped .outOfSteps) ∨
      t.failure = none ∧
        t.exit = if ((newSession level).runSource limits clock source).1.errors = [] then 0 else 1 := by
  intro t
  by_cases hblocked : traceBlocked look level = true
  · exact .inl hblocked
  right
  have hstop : ((newSession level).runSource limits clock source).1.stop = none ∨
      ((newSession level).runSource limits clock source).1.stop = some .outOfSteps := by
    rw [Session.runSource_eq limits herrors]
    exact (Session.ranSource_safe limits herrors clock (Session.Reached.start level _ _).sound).stop
  have hdiagnostics : ((newSession level).runSource limits clock source).1.diagnostics = [] := by
    rw [Session.runSource_eq limits herrors]
    rfl
  have ht : t = ranTranscript ((newSession level).runSource limits clock source).2
      ((newSession level).runSource limits clock source).1 := by
    simp only [t, runProgram, hblocked, hsource]
    rfl
  rw [ht]
  rcases hstop with hstop | hstop
  · right
    simp [ranTranscript, hstop, hdiagnostics]
  · left
    simp [ranTranscript, hstop]

/-- **Running an emitted document is running its source.**  A source without errors can be written
down, and loading the document gives its statements back; in a new session with one reporter for
everything, running these is running the source, with the same outcome and the same session after
it.  So if emitting succeeds, and each number in a token of the source is read as it was written,
then a command that runs the document does what one does that runs the source.  Unless the steps are
used up or the trace cannot be written, its exit status is 1 exactly if there were errors. -/
theorem emitted_runs_alike (limits : Limits) (clock : Nat → Float) {source : String}
    (herrors : (Program.ofSource limits.nesting source).errors = []) :
    let statements := (Program.ofSource limits.nesting source).statements
    let document := Document.ofProgram statements
    Document.writeProgram statements = .ok document ∧
    Document.toProgram document = .ok statements ∧
    (∀ level reporter, (Session.start level reporter .shared).runStatements limits clock statements =
      (Session.start level reporter .shared).runSource limits clock source) ∧
    ∀ (folder : Folder) (path target input : String) (level : Nat),
      readSource folder.look (.ofString path) = .ok source →
      .ofString target = documentFile (.ofString path) →
      (∀ t ∈ (scan source).tokens, t.Kept) →
      let emitted := perform limits clock folder.look input (.emit path)
      emitted.exit = 0 →
      let direct := perform limits clock folder.look input (.program level path)
      perform limits clock (leaves folder emitted).look input (.document level target) = direct ∧
      (traceBlocked folder.look level = true ∨ direct.failure = some (.stopped .outOfSteps) ∨
        direct.failure = none ∧ direct.exit =
          if ((newSession level).runSource limits clock source).1.errors = [] then 0 else 1) := by
  intro statements document
  have hstorable := ofSource_storable limits.nesting (written_scan source)
  refine ⟨Document.writeProgram_eq hstorable, Document.toProgram_ofProgram hstorable,
    fun level reporter => (Session.runSource_eq_runStatements herrors clock rfl).symm, ?_⟩
  intro folder path target input level hsource htarget hkept emitted hexit direct
  refine ⟨?_, runProgram_exit hsource herrors clock level⟩
  simp only [perform, htarget]
  exact runDocument_emitted hsource herrors hexit hkept clock level

/-- A source that prints a number and ends with an error, run by way of its document. -/
theorem emitted_runs_alike_print :
    let source := "print(1.5);\n-null;"
    let folder : Folder := ⟨[(["a.vyx"], .file source.toUTF8)]⟩
    let emitted := perform ⟨9, 9, 9⟩ (fun _ => 0) folder.look "" (.emit "a.vyx")
    perform ⟨9, 9, 9⟩ (fun _ => 0) (leaves folder emitted).look "" (.document 3 "a.vyx.ast.json") =
      perform ⟨9, 9, 9⟩ (fun _ => 0) folder.look "" (.program 3 "a.vyx") := by
  intro source folder emitted
  have herrors : (Program.ofSource 9 source).errors = [] :=
    List.isEmpty_iff.mp (by decide +kernel)
  have hpath : Path.ofString "a.vyx" = ⟨"", ["a.vyx"]⟩ := rfl
  have hsource : readSource folder.look (.ofString "a.vyx") = .ok source := by
    have hlook : folder.look ⟨"", ["a.vyx"]⟩ = .file source.toUTF8 := by
      have hzero : "a.vyx".contains '\x00' = false := by simp
      simp only [Folder.look, Folder.locate, List.any_cons, hzero]
      rfl
    rw [hpath, readSource, if_pos (by decide +kernel), readText, hlook]
    simp only [Text.ofBytes?_toUTF8 (s := source) (by decide)]
  have hexit : emitted.exit = 0 := by
    have hlook : folder.look (documentFile (.ofString "a.vyx")) = .absent := by
      have hzero : "a.vyx.ast.json".contains '\x00' = false := by simp
      have hdocument : documentFile (.ofString "a.vyx") = ⟨"", ["a.vyx.ast.json"]⟩ := rfl
      simp only [hdocument, Folder.look, Folder.locate, List.any_cons, hzero]
      rfl
    simp only [emitted, perform, emit, hsource, herrors, hlook]
    rfl
  have hkept : ∀ t ∈ (scan source).tokens, t.Kept := by
    have hnumbers : ∀ t ∈ (scan source).tokens, ∀ x ∈ t.number?, x = 1.5 := by
      decide +kernel
    refine kept_of_length (by decide +kernel) fun t ht x hx => ?_
    rw [hnumbers t ht x hx]
    rfl
  exact (((emitted_runs_alike ⟨9, 9, 9⟩ (fun _ => 0) herrors).2.2.2 folder "a.vyx"
    "a.vyx.ast.json" "" 3 hsource (by decide +kernel) hkept) hexit).1

end Command

end Script
