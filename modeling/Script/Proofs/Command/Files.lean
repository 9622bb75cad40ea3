/-
# Files that are read back

A file that was written is found where it was written, and nothing else about a folder changes with
it: no directory comes or goes.  The text of a document holds no carriage return, so that reading it
leaves it as it was written.
-/
import Script.Command

namespace Script

/-! ## 1. Text files -/

namespace Text

theorem unifyLineEnds_of_not_mem : ∀ cs : List Char, '\r' ∉ cs → unifyLineEnds cs = cs
  | [], _ => rfl
  | c :: rest, h => by
    have hc : c ≠ '\r' := fun heq => h (heq ▸ List.mem_cons_self)
    have hrest : '\r' ∉ rest := fun hmem => h (List.mem_cons_of_mem _ hmem)
    rw [unifyLineEnds, unifyLineEnds_of_not_mem rest hrest]
    · exact fun _ heq _ => hc heq
    · exact hc

/-- A text without carriage returns is read as it was written. -/
theorem ofBytes?_toUTF8 {s : String} (h : '\r' ∉ s.toList) : ofBytes? s.toUTF8 = some s := by
  have hvalid : s.toUTF8.IsValidUTF8 := s.isValidUTF8
  have hdecode : String.fromUTF8? s.toUTF8 = some s := by
    rw [String.fromUTF8?, dif_pos hvalid]
    rfl
  rw [ofBytes?, hdecode, Option.map_some, unifyLineEnds_of_not_mem _ h, String.ofList_toList]

end Text

/-! ## 2. Documents hold no carriage return -/

namespace Decimal

open Layout

theorem cr_not_mem_toDigits (n : Nat) : '\r' ∉ Nat.toDigits 10 n := fun h =>
  absurd (Nat.isDigit_of_mem_toDigits (by decide) (by decide) h) (by decide)

theorem cr_not_mem_zeros (n : Nat) : '\r' ∉ zeros n := fun h =>
  absurd (List.eq_of_mem_replicate h) (by decide)

theorem cr_not_mem_signed (negative : Bool) {text : String} (h : '\r' ∉ text.toList) :
    '\r' ∉ (signed negative text).toList := by
  cases negative <;> simp [signed, h]

theorem cr_not_mem_ofInt (i : Int) : '\r' ∉ (ofInt i).toList :=
  cr_not_mem_signed _ (by rw [String.toList_ofList]; exact cr_not_mem_toDigits _)

theorem cr_not_mem_positional {digits : List Char} (h : '\r' ∉ digits) (top : Int) :
    '\r' ∉ positional digits top := by
  have hzeros := cr_not_mem_zeros
  have htake : ∀ n, '\r' ∉ digits.take n := fun n hmem => h (List.mem_of_mem_take hmem)
  have hdrop : ∀ n, '\r' ∉ digits.drop n := fun n hmem => h (List.mem_of_mem_drop hmem)
  unfold positional
  dsimp only
  split
  · simp [h, hzeros]
  · split
    · simp [h, hzeros]
    · simp [htake, hdrop]

theorem cr_not_mem_exponentText (top : Int) : '\r' ∉ exponentText top := by
  have hdigits := cr_not_mem_toDigits top.natAbs
  unfold exponentText
  dsimp only
  split <;> split <;> simp [hdigits]

theorem cr_not_mem_scientific {digits : List Char} (h : '\r' ∉ digits) (top : Int) :
    '\r' ∉ scientific digits top := by
  have hexponent := cr_not_mem_exponentText top
  unfold scientific
  split
  · simp
  · simpa [hexponent] using h
  · simp only [List.mem_cons, not_or] at h
    simp [hexponent, h]

theorem cr_not_mem_magnitude (l : Layout) (d : Digits) : '\r' ∉ l.magnitude d := by
  have htrim : '\r' ∉ trimZeros (Nat.toDigits 10 d.coefficient) := by
    intro h
    have hmem := List.mem_reverse.mp h
    exact cr_not_mem_toDigits _ (List.mem_reverse.mp ((List.dropWhile_sublist _).subset hmem))
  unfold Layout.magnitude
  dsimp only
  split
  · exact cr_not_mem_positional htrim _
  · exact cr_not_mem_scientific htrim _

theorem cr_not_mem_render (x : Float) : '\r' ∉ (Layout.document.render x).toList := by
  unfold Layout.render
  split
  · decide
  · exact cr_not_mem_signed _ (by decide)
  · exact cr_not_mem_signed _ (by decide)
  · exact cr_not_mem_signed _ (by rw [String.toList_ofList]; exact cr_not_mem_magnitude _ _)

end Decimal

namespace Datum

theorem cr_not_mem_hexDigits {c : Char} (h : c.toNat < 0x20) : '\r' ∉ Text.hexDigits 4 c.toNat := by
  have hall : ∀ n < 0x20, '\r' ∉ Text.hexDigits 4 n := by decide
  exact hall c.toNat h

theorem cr_not_mem_escapeChar (c : Char) : '\r' ∉ escapeChar c := by
  unfold escapeChar
  split
  · decide
  split
  · decide
  split
  · decide
  split
  · decide
  split
  · decide
  split
  · decide
  split
  · decide
  split
  · rename_i h
    simp [cr_not_mem_hexDigits h]
  · rename_i h _ _ _ _
    intro hmem
    exact h (List.mem_singleton.mp hmem).symm

theorem cr_not_mem_writeString (s : String) : '\r' ∉ (writeString s).toList := by
  simp [writeString, cr_not_mem_escapeChar]

theorem cr_not_mem_newLine (level : Nat) : '\r' ∉ (newLine level).toList := by
  simp [newLine]

/-- Pieces without a carriage return, joined by commas. -/
theorem cr_not_mem_intercalate : ∀ pieces : List String, (∀ piece ∈ pieces, '\r' ∉ piece.toList) →
    '\r' ∉ (",".intercalate pieces).toList
  | [], _ => by decide
  | [piece], h => by
    rw [String.toList_intercalate, List.map_singleton, List.intercalate_singleton]
    exact h piece List.mem_cons_self
  | piece :: next :: rest, h => by
    have ih := cr_not_mem_intercalate (next :: rest) fun p hp => h p (List.mem_cons_of_mem _ hp)
    rw [String.toList_intercalate, List.map_cons] at ih ⊢
    rw [List.map_cons, List.intercalate_cons_cons]
    simp only [List.mem_append, not_or]
    exact ⟨⟨h piece List.mem_cons_self, by decide⟩, ih⟩

mutual

theorem cr_not_mem_write (level : Nat) : ∀ d : Datum, '\r' ∉ (d.write level).toList
  | .null => by simp [write]
  | .bool true => by simp [write]
  | .bool false => by simp [write]
  | .int i => Decimal.cr_not_mem_ofInt i
  | .num x => Decimal.cr_not_mem_render x
  | .str s => cr_not_mem_writeString s
  | .list [] => by simp [write]
  | .list (d :: rest) => by
    have hitems := cr_not_mem_intercalate _ (cr_not_mem_writeItems (level + 1) (d :: rest))
    simpa [write, cr_not_mem_newLine] using hitems
  | .obj [] => by simp [write]
  | .obj (field :: rest) => by
    have hfields := cr_not_mem_intercalate _ (cr_not_mem_writeFields (level + 1) (field :: rest))
    simpa [write, cr_not_mem_newLine] using hfields

theorem cr_not_mem_writeItems (level : Nat) : ∀ items : List Datum,
    ∀ piece ∈ writeItems level items, '\r' ∉ piece.toList
  | [], _, h => by cases h
  | d :: rest, piece, h => by
    rcases List.mem_cons.mp h with rfl | h
    · simp [cr_not_mem_newLine, cr_not_mem_write level d]
    · exact cr_not_mem_writeItems level rest piece h

theorem cr_not_mem_writeFields (level : Nat) : ∀ fields : List (String × Datum),
    ∀ piece ∈ writeFields level fields, '\r' ∉ piece.toList
  | [], _, h => by cases h
  | (name, d) :: rest, piece, h => by
    rcases List.mem_cons.mp h with rfl | h
    · simp [cr_not_mem_newLine, cr_not_mem_writeString, cr_not_mem_write level d]
    · exact cr_not_mem_writeFields level rest piece h

end

/-- The text of a document is read as it was written. -/
theorem ofBytes?_toText (d : Datum) : Text.ofBytes? d.toText.toUTF8 = some d.toText :=
  Text.ofBytes?_toUTF8 (cr_not_mem_write 0 d)

end Datum

/-! ## 3. Folders -/

namespace Folder

variable {f : Folder}

theorem isDirectory_iff {names : List String} : f.isDirectory names = true ↔
    names = [] ∨ ∃ listed entry, (listed, entry) ∈ f.entries ∧ names <+: listed ∧
      (names.length < listed.length ∨ entry = .directory) := by
  simp only [isDirectory, Bool.or_eq_true, List.isEmpty_iff, List.any_eq_true, Bool.and_eq_true,
    List.isPrefixOf_iff_prefix, decide_eq_true_eq, Prod.exists]
  refine or_congr_right (exists_congr fun listed => exists_congr fun entry => ?_)
  refine and_congr_right fun _ => and_congr_right fun _ => or_congr_right ?_
  cases entry <;> simp

/-- What a directory lies in is a directory. -/
theorem isDirectory_of_leading {names more : List String} (hleads : names <+: more)
    (h : f.isDirectory more = true) : f.isDirectory names = true := by
  rcases isDirectory_iff.mp h with rfl | ⟨listed, entry, hmem, hlisted, hkind⟩
  · rw [List.prefix_nil.mp hleads]
    rfl
  · rcases Nat.lt_or_ge names.length more.length with hlt | hge
    · have hle := hlisted.length_le
      exact isDirectory_iff.mpr (.inr ⟨listed, entry, hmem, hleads.trans hlisted, .inl (by omega)⟩)
    · rw [hleads.eq_of_length_le hge]
      exact h

/-- A directory is what is found there, and nothing else is found as one. -/
theorem find_eq_directory {names : List String} :
    f.find names = .directory ↔ f.isDirectory names = true := by
  by_cases h : f.isDirectory names = true
  · simp [find, h]
  · refine iff_of_false ?_ h
    rw [find, if_neg h]
    split
    · rename_i listed entry hfind
      rintro rfl
      have hmem := List.mem_of_find?_eq_some hfind
      have hlisted : listed = names := by simpa using List.find?_some hfind
      exact h (isDirectory_iff.mpr (.inr ⟨listed, .directory, hmem, hlisted ▸ List.prefix_rfl, .inr rfl⟩))
    · rintro ⟨⟩

/-- Where names lead, if each of them leads to a directory. -/
def pass (f : Folder) : Place → List String → Except Entry Place
  | place, [] => .ok place
  | .outside, name :: rest =>
    if name = ".." then f.pass .outside rest
    else .error (if Path.isLongName name then .tooLong else .absent)
  | .below names, name :: rest =>
    if name = ".." then
      f.pass (if names.isEmpty then .outside else .below names.dropLast) rest
    else if Path.isLongName name then .error .tooLong
    else if f.isDirectory (names ++ [name]) then f.pass (.below (names ++ [name])) rest
    else .error .absent

/-- All names but the last one have to lead to directories. -/
theorem walk_concat (last : String) : ∀ (names : List String) (place : Place),
    f.walk place (names ++ [last]) = f.pass place names >>= fun place => f.walk place [last]
  | [], _ => rfl
  | name :: rest, .outside => by
    rw [List.cons_append, walk, pass]
    split
    · exact walk_concat last rest .outside
    · rfl
  | name :: rest, .below names => by
    rw [List.cons_append, walk, pass]
    have hne : (rest ++ [last]).isEmpty = false := by simp
    split
    · exact walk_concat last rest _
    split
    · rfl
    simp only [hne, Bool.false_or]
    split
    · exact walk_concat last rest _
    · rfl

/-- A way through directories that ends below the current one ends at a directory. -/
theorem isDirectory_pass : ∀ (names : List String) (place : Place) {below : List String},
    f.pass place names = .ok (.below below) →
    (∀ start, place = .below start → f.isDirectory start = true) → f.isDirectory below = true
  | [], _, _, h, hstart => by
    cases h
    exact hstart _ rfl
  | name :: rest, .outside, below, h, hstart => by
    rw [pass] at h
    split at h
    · exact isDirectory_pass rest .outside h (by rintro _ ⟨⟩)
    · cases h
  | name :: rest, .below start, below, h, hstart => by
    rw [pass] at h
    split at h
    · refine isDirectory_pass rest _ h fun start' hstart' => ?_
      split at hstart'
      · cases hstart'
      · cases hstart'
        exact isDirectory_of_leading (List.dropLast_prefix start) (hstart start rfl)
    split at h
    · cases h
    split at h
    · rename_i hdirectory
      refine isDirectory_pass rest _ h ?_
      rintro _ ⟨⟩
      exact hdirectory
    · cases h

/-- A file can be put at a path: it leads to a name in a directory, and no directory stands
there. -/
structure Writable (f : Folder) (p : Path) (names : List String) (last : String) : Prop where
  locate : f.locate p = .ok (.below (names ++ [last]))
  isDirectory : f.isDirectory names = true
  isFile : f.isDirectory (names ++ [last]) = false

section Write

variable {p : Path} {names : List String} {last : String}

/-- No directory comes or goes where a file is written. -/
theorem Writable.isDirectory_write (h : f.Writable p names last) (text : String)
    (other : List String) : (f.write p text).isDirectory other = f.isDirectory other := by
  rw [Bool.eq_iff_iff, isDirectory_iff, isDirectory_iff, write, h.locate]
  simp only [List.mem_append, List.mem_filter, List.mem_singleton, bne_iff_ne, ne_eq]
  constructor
  · rintro (rfl | ⟨listed, entry, ⟨hmem, -⟩ | hnew, hleads, hkind⟩)
    · exact .inl rfl
    · exact .inr ⟨listed, entry, hmem, hleads, hkind⟩
    · cases hnew
      have hlt : other.length < (names ++ [last]).length := hkind.resolve_right (by rintro ⟨⟩)
      have hother : other <+: names := by
        rw [List.prefix_concat_iff] at hleads
        exact hleads.resolve_left fun heq => by rw [heq] at hlt; omega
      exact isDirectory_iff.mp (isDirectory_of_leading hother h.isDirectory)
  · rintro (rfl | ⟨listed, entry, hmem, hleads, hkind⟩)
    · exact .inl rfl
    · right
      by_cases hlisted : listed = names ++ [last]
      · subst hlisted
        refine ⟨_, _, .inr rfl, hleads, .inl (hkind.resolve_right ?_)⟩
        rintro rfl
        have hdirectory : f.isDirectory (names ++ [last]) = true :=
          isDirectory_iff.mpr (.inr ⟨_, _, hmem, List.prefix_rfl, .inr rfl⟩)
        rw [h.isFile] at hdirectory
        cases hdirectory
      · exact ⟨listed, entry, .inl ⟨hmem, hlisted⟩, hleads, hkind⟩

/-- Which way a path goes is settled by the directories. -/
theorem walk_congr {g : Folder} (h : ∀ names, g.isDirectory names = f.isDirectory names) :
    ∀ (names : List String) (place : Place), g.walk place names = f.walk place names
  | [], _ => rfl
  | name :: rest, .outside => by
    rw [walk, walk, walk_congr h rest]
  | name :: rest, .below names => by
    simp only [walk, walk_congr h rest, h]

theorem Writable.locate_write (h : f.Writable p names last) (text : String) (q : Path) :
    (f.write p text).locate q = f.locate q := by
  simp only [Folder.locate, walk_congr (h.isDirectory_write text)]

/-- A file is found where it was written. -/
theorem Writable.look_write (h : f.Writable p names last) (text : String) :
    (f.write p text).look p = .file text.toUTF8 := by
  rw [look, h.locate_write, h.locate]
  simp only [find, h.isDirectory_write, h.isFile]
  simp only [write, h.locate, List.find?_append]
  rw [List.find?_eq_none.mpr]
  · simp
  · rintro ⟨listed, entry⟩ hmem
    simpa using (List.mem_filter.mp hmem).2

/-- What was a directory before a file was written still is one, and nothing else is. -/
theorem Writable.look_write_directory (h : f.Writable p names last) (text : String) (q : Path) :
    (f.write p text).look q = .directory ↔ f.look q = .directory := by
  rw [look, look, h.locate_write]
  cases f.locate q with
  | error entry => exact Iff.rfl
  | ok place =>
    cases place with
    | outside => exact Iff.rfl
    | below other => exact find_eq_directory.trans ((h.isDirectory_write text other) ▸ find_eq_directory.symm)

end Write

/-! ## 4. Beside a file -/

/-- The end of a way, unless it leads back. -/
theorem walk_last {place : Place} {last : String} (h : last ≠ "..") : f.walk place [last] =
    match place with
    | .below names => if Path.isLongName last then .error .tooLong else .ok (.below (names ++ [last]))
    | .outside => .error (if Path.isLongName last then .tooLong else .absent) := by
  cases place with
  | below names => simp [walk, h]
  | outside => simp [walk, h]

/-- What stands in the way is no file. -/
theorem pass_error : ∀ (names : List String) (place : Place) {entry : Entry},
    f.pass place names = .error entry → ∀ bytes, entry ≠ .file bytes
  | [], _, _, h => by cases h
  | name :: rest, .outside, entry, h => by
    rw [pass] at h
    split at h
    · exact pass_error rest .outside h
    · split at h <;> cases h <;> rintro _ ⟨⟩
  | name :: rest, .below names, entry, h => by
    rw [pass] at h
    split at h
    · exact pass_error rest _ h
    split at h
    · cases h
      rintro _ ⟨⟩
    split at h
    · exact pass_error rest _ h
    · cases h
      rintro _ ⟨⟩

/-- Where a path starts. -/
def startOf (root : String) : Place := if root = "" then .below [] else .outside

theorem isDirectory_startOf {root : String} (start : List String)
    (h : startOf root = .below start) : f.isDirectory start = true := by
  unfold startOf at h
  split at h
  · cases h
    rfl
  · cases h

variable {root : String} {names : List String} {last : String}

theorem locate_concat (hlast : last ≠ "..") : f.locate ⟨root, names ++ [last]⟩ =
    if (names ++ [last]).any (·.contains '\x00') then .error .absent
    else if Path.isLong ⟨root, names ++ [last]⟩ then .error .tooLong
    else f.pass (startOf root) names >>= fun
      | .below below =>
        if Path.isLongName last then .error .tooLong else .ok (.below (below ++ [last]))
      | .outside => .error (if Path.isLongName last then .tooLong else .absent) := by
  rw [locate]
  dsimp only
  rw [walk_concat]
  simp only [walk_last hlast]
  rfl

/-- A file lies in a directory. -/
theorem pass_of_file {bytes : ByteArray} (hlast : last ≠ "..")
    (hfile : f.look ⟨root, names ++ [last]⟩ = .file bytes) :
    (names ++ [last]).any (·.contains '\x00') = false ∧
      ∃ below, f.pass (startOf root) names = .ok (.below below) := by
  rw [look, locate_concat hlast] at hfile
  by_cases hzero : (names ++ [last]).any (·.contains '\x00') = true
  · rw [if_pos hzero] at hfile
    cases hfile
  rw [if_neg hzero] at hfile
  by_cases hlong : Path.isLong ⟨root, names ++ [last]⟩ = true
  · rw [if_pos hlong] at hfile
    cases hfile
  rw [if_neg hlong] at hfile
  refine ⟨by simpa using hzero, ?_⟩
  cases hpass : f.pass (startOf root) names with
  | error entry =>
    rw [hpass] at hfile
    exact absurd hfile (pass_error names _ hpass bytes)
  | ok place =>
    cases place with
    | below below => exact ⟨below, rfl⟩
    | outside =>
      rw [hpass] at hfile
      have hentry : (if Path.isLongName last then Entry.tooLong else .absent) = .file bytes := hfile
      split at hentry <;> cases hentry

/-- In a directory every name leads somewhere, unless it is too long. -/
theorem locate_of_pass (hlast : last ≠ "..")
    (hzero : (names ++ [last]).any (·.contains '\x00') = false) {below : List String}
    (hpass : f.pass (startOf root) names = .ok (.below below)) :
    f.locate ⟨root, names ++ [last]⟩ = .ok (.below (below ++ [last])) ∨
      f.locate ⟨root, names ++ [last]⟩ = .error .tooLong := by
  rw [locate_concat hlast, hzero, hpass]
  by_cases hpath : Path.isLong ⟨root, names ++ [last]⟩ = true
  · exact .inr (if_pos hpath)
  · by_cases hname : Path.isLongName last = true
    · exact .inr ((if_neg hpath).trans (if_pos hname))
    · exact .inl ((if_neg hpath).trans (if_neg hname))

/-- Beside a file another one can be written, unless its path is too long or a directory stands
there. -/
theorem writable_beside {last' : String} {bytes : ByteArray} (hlast : last ≠ "..")
    (hfile : f.look ⟨root, names ++ [last]⟩ = .file bytes) (hlast' : last' ≠ "..")
    (hzero : last'.contains '\x00' = false) (hlong : f.look ⟨root, names ++ [last']⟩ ≠ .tooLong)
    (hdirectory : f.look ⟨root, names ++ [last']⟩ ≠ .directory) :
    ∃ below, f.Writable ⟨root, names ++ [last']⟩ below last' := by
  obtain ⟨hzeros, below, hpass⟩ := pass_of_file hlast hfile
  have hzeros' : (names ++ [last']).any (·.contains '\x00') = false := by
    rw [List.any_append, Bool.or_eq_false_iff] at hzeros ⊢
    exact ⟨hzeros.1, by simpa using hzero⟩
  rcases locate_of_pass hlast' hzeros' hpass with hlocate | hlocate
  · refine ⟨below, hlocate, isDirectory_pass names _ hpass isDirectory_startOf, ?_⟩
    rw [look, hlocate] at hdirectory
    simpa using mt find_eq_directory.mpr hdirectory
  · rw [look, hlocate] at hlong
    exact absurd rfl hlong

end Folder

end Script
