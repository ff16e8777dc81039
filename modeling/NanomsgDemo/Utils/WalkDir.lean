import Mathlib.Data.List.Nodup
import NanomsgDemo.Lib.Worklist
import NanomsgDemo.Net.CString

/-!
# Walking a directory

`WalkDirEx` of `libutils/FileUtils.cpp`: directories that have been found wait in a
queue, and a callback is called for each file. What `_findfirst` and `_findnext` deliver
is a parameter: the entries for a pattern, none of them if `_findfirst` fails.

For a finite tree of directories, enumerated in any order, this is the run of a worklist
(`Worklist`), so the callback is called once for each file. The paths do not collide, for
no name has a separator in it.
-/

namespace NanomsgDemo.Utils

open Net Worklist

/-- A `std::string`. -/
abbrev Path := List Byte

/-- `_finddata_t`, as far as it is looked at. -/
structure FindData where
  name : Path
  attrib : UInt32

def _A_SUBDIR : UInt32 := 0x10

/-- `"\\"`. -/
def separator : Byte := chr '\\'

/-- The name is neither `.` nor `..`. -/
def FindData.named (findData : FindData) : Bool :=
  findData.name ≠ text "." && findData.name ≠ text ".."

def FindData.isDir (findData : FindData) : Bool := findData.attrib &&& _A_SUBDIR ≠ 0

/-- What `WalkDirEx` does with an entry it was given, to `vecFiles` and to `directory`. -/
def visit {σ : Type} (pfunCallBack : σ → Path → σ) (strDirForWalk : Path)
    (s : σ × List Path) (findData : FindData) : σ × List Path :=
  if findData.named then
    if findData.isDir then (s.1, s.2 ++ [strDirForWalk ++ findData.name ++ [separator]])
    else (pfunCallBack s.1 (strDirForWalk ++ findData.name), s.2)
  else s

/-- The `do` loop of `WalkDirEx`; `os` gives what is found for a pattern. -/
def walkLoop {σ : Type} (os : Path → List FindData) (pfunCallBack : σ → Path → σ) :
    (fuel : Nat) → σ → List Path → Option σ
  | 0, _, _ => none
  | _ + 1, vecFiles, [] => some vecFiles
  | fuel + 1, vecFiles, strDirForWalk :: directory =>
      match os (strDirForWalk ++ text "*") with
      | [] => walkLoop os pfunCallBack fuel vecFiles directory
      | first :: others =>
          let s := visit pfunCallBack strDirForWalk (vecFiles, directory) first
          let s := others.foldl (visit pfunCallBack strDirForWalk) s
          walkLoop os pfunCallBack fuel s.1 s.2

/-- The root with a separator at its end. -/
def rootOf (dir : Path) : Path :=
  if dir.getLast? ≠ some separator ∧ dir.getLast? ≠ some (chr '/') then dir ++ [separator]
  else dir

/-- `WalkDirEx`: `ret` and `vecFiles`, `none` when the fuel does not last. -/
def WalkDirEx {σ : Type} (fuel : Nat) (os : Path → List FindData) (dir : Option Path)
    (vecFiles : σ) (pfunCallBack : Option (σ → Path → σ)) : Option (Int32 × σ) :=
  match dir, pfunCallBack with
  | some dir, some pfunCallBack =>
      if dir = [] then some (-2, vecFiles)
      else (walkLoop os pfunCallBack fuel vecFiles [rootOf dir]).map fun vecFiles => (0, vecFiles)
  | _, _ => some (-1, vecFiles)

/-- `WalkDirCallBack`. -/
def walkDirCallBack (vecFiles : List Path) (filePath : Path) : List Path := vecFiles ++ [filePath]

/-! ## Directory trees -/

/-- A file, or a directory with what is in it. -/
inductive Entry where
  | file (name : Path) (attrib : UInt32)
  | dir (name : Path) (attrib : UInt32) (entries : List Entry)

namespace Entry

def name : Entry → Path
  | file n _ => n
  | dir n _ _ => n

/-- How the entry is reported. -/
def findData : Entry → FindData
  | file n a => ⟨n, a &&& ~~~_A_SUBDIR⟩
  | dir n a _ => ⟨n, a ||| _A_SUBDIR⟩

end Entry

/-- A directory below the one at `p`. -/
def subdir (p name : Path) : Path := p ++ name ++ [separator]

mutual

/-- The full paths of the files in an entry of the directory at `p`. -/
def Entry.files (p : Path) : Entry → List Path
  | .file n _ => [p ++ n]
  | .dir n _ entries => filesIn (subdir p n) entries

/-- The full paths of the files in the tree at `p`. -/
def filesIn (p : Path) : List Entry → List Path
  | [] => []
  | e :: entries => e.files p ++ filesIn p entries

end

mutual

/-- The full paths of the directories in an entry, itself included. -/
def Entry.dirs (p : Path) : Entry → List Path
  | .file _ _ => []
  | .dir n _ entries => (p ++ n) :: dirsIn (subdir p n) entries

/-- The full paths of the directories in the tree at `p`. -/
def dirsIn (p : Path) : List Entry → List Path
  | [] => []
  | e :: entries => e.dirs p ++ dirsIn p entries

end

/-- Names in a directory are distinct, are not `.` or `..`, and have no separator. -/
inductive Tree : List Entry → Prop where
  | intro {entries : List Entry} (distinct : (entries.map Entry.name).Nodup)
      (named : ∀ e ∈ entries, e.findData.named = true)
      (plain : ∀ e ∈ entries, separator ∉ e.name)
      (below : ∀ n a sub, Entry.dir n a sub ∈ entries → Tree sub) : Tree entries

/--
`os` enumerates the tree at `p`: in each directory the entries in some order, with `.` and
`..` or without them, and nothing where there is nothing.
-/
inductive Lists (os : Path → List FindData) : Path → List Entry → Prop where
  | intro {p : Path} {entries order : List Entry} (perm : order.Perm entries)
      (found : (os (p ++ text "*")).filter FindData.named = order.map Entry.findData)
      (below : ∀ n a sub, Entry.dir n a sub ∈ entries → Lists os (subdir p n) sub) :
      Lists os p entries

/-! ## The loop is a worklist -/

def fileFound (p : Path) (findData : FindData) : Option Path :=
  if findData.named && !findData.isDir then some (p ++ findData.name) else none

def dirFound (p : Path) (findData : FindData) : Option Path :=
  if findData.named && findData.isDir then some (subdir p findData.name) else none

variable {os : Path → List FindData}

def filesFound (os : Path → List FindData) (p : Path) : List Path :=
  (os (p ++ text "*")).filterMap (fileFound p)

def dirsFound (os : Path → List FindData) (p : Path) : List Path :=
  (os (p ++ text "*")).filterMap (dirFound p)

theorem foldl_visit {σ : Type} (pfunCallBack : σ → Path → σ) (p : Path) (found : List FindData)
    (s : σ × List Path) :
    found.foldl (visit pfunCallBack p) s =
      ((found.filterMap (fileFound p)).foldl pfunCallBack s.1,
        s.2 ++ found.filterMap (dirFound p)) := by
  induction found generalizing s with
  | nil => simp
  | cons d found ih =>
      rw [List.foldl_cons, ih]
      unfold visit fileFound dirFound subdir
      cases hnamed : d.named with
      | false => simp [hnamed]
      | true => cases hdir : d.isDir <;> simp [hnamed, hdir]

theorem walkLoop_eq_run {σ : Type} (pfunCallBack : σ → Path → σ) (fuel : Nat) (vecFiles : σ)
    (directory : List Path) :
    walkLoop os pfunCallBack fuel vecFiles directory =
      run (filesFound os) (dirsFound os) pfunCallBack fuel vecFiles directory := by
  induction fuel generalizing vecFiles directory with
  | zero => rfl
  | succ fuel ih =>
      cases directory with
      | nil => rfl
      | cons p directory =>
          rw [walkLoop, run]
          unfold filesFound dirsFound
          cases hos : os (p ++ text "*") with
          | nil =>
              rw [List.filterMap_nil, List.filterMap_nil, List.append_nil]
              exact ih vecFiles directory
          | cons first others =>
              -- the first entry is handled like the others
              have hfold := foldl_visit pfunCallBack p (first :: others) (vecFiles, directory)
              rw [List.foldl_cons] at hfold
              dsimp only
              rw [hfold]
              exact ih _ _

/-! ## What is below a directory -/

theorem isDir_file (n : Path) (a : UInt32) : (Entry.file n a).findData.isDir = false := by
  have hand : a &&& ~~~_A_SUBDIR &&& _A_SUBDIR = 0 := by
    rw [UInt32.and_assoc, UInt32.not_and_self, UInt32.and_zero]
  simp [Entry.findData, FindData.isDir, hand]

theorem isDir_dir (n : Path) (a : UInt32) (sub : List Entry) :
    (Entry.dir n a sub).findData.isDir = true := by
  have hbool : ∀ x y : Bool, ((x || y) && y) = y := by decide
  have hand : (a ||| _A_SUBDIR) &&& _A_SUBDIR = _A_SUBDIR := by
    apply UInt32.toBitVec_inj.mp
    ext i hi
    rw [UInt32.toBitVec_and, UInt32.toBitVec_or, BitVec.getElem_and, BitVec.getElem_or]
    exact hbool _ _
  have hne : _A_SUBDIR ≠ 0 := by decide
  simp [Entry.findData, FindData.isDir, hand, hne]

theorem filesIn_eq (p : Path) (entries : List Entry) :
    filesIn p entries = entries.flatMap (Entry.files p) := by
  induction entries with
  | nil => rfl
  | cons e entries ih => rw [filesIn, List.flatMap_cons, ih]

theorem dirsIn_eq (p : Path) (entries : List Entry) :
    dirsIn p entries = entries.flatMap (Entry.dirs p) := by
  induction entries with
  | nil => rfl
  | cons e entries ih => rw [dirsIn, List.flatMap_cons, ih]

/-- A directory with as many nodes below it as directories, and the files as outputs. -/
def Covers (os : Path → List FindData) (p : Path) (entries : List Entry) (outputs : List Path) :
    Prop :=
  Below (filesFound os) (dirsFound os) ⟨p, 1 + (dirsIn p entries).length, outputs⟩ ∧
    outputs.Perm (filesIn p entries)

/-- What is below the subdirectories, put together. -/
theorem exists_tallies {p : Path} {entries : List Entry}
    (hnamed : ∀ e ∈ entries, e.findData.named = true)
    (h : ∀ n a sub, Entry.dir n a sub ∈ entries → ∃ outputs, Covers os (subdir p n) sub outputs) :
    ∃ tallies : List (Tally Path Path),
      tallies.map Tally.node = (entries.map Entry.findData).filterMap (dirFound p) ∧
      (∀ t ∈ tallies, Below (filesFound os) (dirsFound os) t) ∧
      (tallies.map Tally.nodes).sum = (dirsIn p entries).length ∧
      ((entries.map Entry.findData).filterMap (fileFound p) ++
        tallies.flatMap Tally.outputs).Perm (filesIn p entries) := by
  induction entries with
  | nil => exact ⟨[], rfl, fun t ht => absurd ht List.not_mem_nil, rfl, List.Perm.refl _⟩
  | cons e entries ih =>
      obtain ⟨tallies, hnodes, hbelow, hsum, hperm⟩ :=
        ih (fun d hd => hnamed d (List.mem_cons_of_mem e hd))
          (fun n a sub hd => h n a sub (List.mem_cons_of_mem e hd))
      have hname := hnamed e List.mem_cons_self
      cases e with
      | file n a =>
          have hdir := isDir_file n a
          refine ⟨tallies, ?_, hbelow, ?_, ?_⟩
          · simp [dirFound, hdir, hnodes]
          · rw [dirsIn, Entry.dirs, List.nil_append, hsum]
          · rw [filesIn, Entry.files, List.map_cons, List.filterMap_cons]
            simp only [fileFound, hname, hdir]
            exact hperm.cons (p ++ n)
      | dir n a sub =>
          have hdir := isDir_dir n a sub
          obtain ⟨outputs, hcovers, hout⟩ := h n a sub List.mem_cons_self
          refine ⟨⟨subdir p n, 1 + (dirsIn (subdir p n) sub).length, outputs⟩ :: tallies,
            ?_, ?_, ?_, ?_⟩
          · rw [List.map_cons, List.map_cons, List.filterMap_cons, hnodes]
            simp only [dirFound, hname, hdir]
            rfl
          · intro t ht
            rcases List.mem_cons.mp ht with ht | ht
            · rw [ht]
              exact hcovers
            · exact hbelow t ht
          · rw [dirsIn, Entry.dirs, List.map_cons, List.sum_cons, hsum]
            simp only [List.length_append, List.length_cons]
            omega
          · rw [filesIn, Entry.files, List.map_cons, List.filterMap_cons, List.flatMap_cons]
            simp only [fileFound, hname, hdir]
            -- the files of the subdirectory go behind those of this one
            have hmove : ((entries.map Entry.findData).filterMap (fileFound p) ++
                (outputs ++ tallies.flatMap Tally.outputs)).Perm
                (outputs ++ ((entries.map Entry.findData).filterMap (fileFound p) ++
                  tallies.flatMap Tally.outputs)) := by
              rw [← List.append_assoc, ← List.append_assoc]
              exact List.perm_append_comm.append_right _
            exact hmove.trans (hout.append hperm)

/-- What is not named is passed over. -/
theorem filterMap_named {f : FindData → Option Path} (hf : ∀ d, d.named = false → f d = none)
    (found : List FindData) : (found.filter FindData.named).filterMap f = found.filterMap f := by
  rw [List.filterMap_filter]
  refine List.filterMap_congr ?_
  intro d _
  cases hnamed : d.named with
  | true => rfl
  | false => exact (hf d hnamed).symm

/-- A tree that is enumerated is covered by what is found in it. -/
theorem exists_covers {p : Path} {entries : List Entry} (hlists : Lists os p entries)
    (htree : Tree entries) : ∃ outputs, Covers os p entries outputs := by
  induction hlists with
  | @intro p entries order hperm hfound _ ih =>
      obtain ⟨-, hnamed, -, hbelow⟩ := htree
      have horder : ∀ e ∈ order, e.findData.named = true := fun e he =>
        hnamed e (hperm.mem_iff.mp he)
      obtain ⟨tallies, hnodes, htallies, hsum, hout⟩ := exists_tallies horder (fun n a sub hsub =>
        ih n a sub (hperm.mem_iff.mp hsub) (hbelow n a sub (hperm.mem_iff.mp hsub)))
      have hfiles : filesFound os p = (order.map Entry.findData).filterMap (fileFound p) := by
        rw [← hfound]
        exact (filterMap_named (fun d hd => by simp [fileFound, hd]) _).symm
      have hdirs : dirsFound os p = (order.map Entry.findData).filterMap (dirFound p) := by
        rw [← hfound]
        exact (filterMap_named (fun d hd => by simp [dirFound, hd]) _).symm
      have hlength : (dirsIn p order).length = (dirsIn p entries).length := by
        rw [dirsIn_eq, dirsIn_eq]
        exact (hperm.flatMap_right _).length_eq
      have hsame : (filesIn p order).Perm (filesIn p entries) := by
        rw [filesIn_eq, filesIn_eq]
        exact hperm.flatMap_right _
      refine ⟨filesFound os p ++ tallies.flatMap Tally.outputs, ?_, ?_⟩
      · rw [← hlength, ← hsum]
        exact Below.intro tallies (hnodes.trans hdirs.symm) htallies
      · rw [hfiles]
        exact hout.trans hsame

/-! ## The paths are distinct -/

/-- The path of an entry of the directory at `p`, or of something in it. -/
def Inside (p name x : Path) : Prop :=
  ∃ rest, x = p ++ name ++ rest ∧ ∀ c ∈ rest.head?, c = separator

/-- The name goes up to the next separator. -/
theorem Inside.takeWhile_eq {p name x : Path} (hname : separator ∉ name) (h : Inside p name x) :
    (x.drop p.length).takeWhile (· ≠ separator) = name := by
  obtain ⟨rest, rfl, hrest⟩ := h
  have hall : ∀ c ∈ name, decide (c ≠ separator) = true := by
    intro c hc
    refine decide_eq_true ?_
    intro hsep
    exact hname (hsep ▸ hc)
  rw [List.append_assoc, List.drop_left, List.takeWhile_append_of_pos hall]
  cases rest with
  | nil => simp
  | cons c rest =>
      have hc : c = separator := hrest c rfl
      simp [hc]

mutual

theorem paths_inside (p : Path) : ∀ (e : Entry), ∀ x ∈ e.files p ++ e.dirs p, Inside p e.name x
  | .file n a, x, hx => by
      rw [Entry.files, Entry.dirs, List.append_nil, List.mem_singleton] at hx
      exact ⟨[], by rw [hx, List.append_nil]; rfl, by simp⟩
  | .dir n a sub, x, hx => by
      rw [Entry.files, Entry.dirs, List.perm_middle.mem_iff, List.mem_cons] at hx
      rcases hx with hx | hx
      · exact ⟨[], by rw [hx, List.append_nil]; rfl, by simp⟩
      · obtain ⟨rest, hrest⟩ := pathsIn_prefix (subdir p n) sub x hx
        exact ⟨separator :: rest, by rw [hrest, subdir]; simp [Entry.name], by simp⟩

theorem pathsIn_prefix (p : Path) : ∀ (entries : List Entry),
    ∀ x ∈ filesIn p entries ++ dirsIn p entries, ∃ rest, x = p ++ rest
  | [], x, hx => absurd hx List.not_mem_nil
  | e :: entries, x, hx => by
      rw [filesIn, dirsIn] at hx
      have hcases : x ∈ e.files p ++ e.dirs p ∨ x ∈ filesIn p entries ++ dirsIn p entries := by
        simp only [List.mem_append] at hx ⊢
        tauto
      rcases hcases with hx | hx
      · obtain ⟨rest, hrest, -⟩ := paths_inside p e x hx
        exact ⟨e.name ++ rest, by rw [hrest, List.append_assoc]⟩
      · exact pathsIn_prefix p entries x hx

end

/-- No path occurs twice, neither of a file nor of a directory. -/
theorem nodup_paths {entries : List Entry} (h : Tree entries) (p : Path) :
    (filesIn p entries ++ dirsIn p entries).Nodup := by
  induction h generalizing p with
  | @intro entries hdistinct _ hplain _ ih =>
      rw [filesIn_eq, dirsIn_eq, (List.flatMap_append_perm ..).nodup_iff, List.nodup_flatMap]
      constructor
      · intro e he
        cases e with
        | file n a => simp [Entry.files, Entry.dirs]
        | dir n a sub =>
            rw [Entry.files, Entry.dirs, List.nodup_middle, List.nodup_cons]
            refine ⟨?_, ih n a sub he (subdir p n)⟩
            -- whatever is in the directory has a longer path
            intro hx
            obtain ⟨rest, hrest⟩ := pathsIn_prefix (subdir p n) sub _ hx
            have hlen := congrArg List.length hrest
            simp only [subdir, List.length_append, List.length_singleton] at hlen
            omega
      · refine (List.pairwise_map.mp hdistinct).imp_of_mem ?_
        intro e e' he he' hne
        refine List.disjoint_left.mpr ?_
        intro x hx hx'
        have hname := (paths_inside p e x hx).takeWhile_eq (hplain e he)
        have hname' := (paths_inside p e' x hx').takeWhile_eq (hplain e' he')
        exact hne (hname.symm.trans hname')

/-- With `WalkDirCallBack` the paths are appended to the list. -/
theorem foldl_walkDirCallBack (calls vecFiles : List Path) :
    calls.foldl walkDirCallBack vecFiles = vecFiles ++ calls := by
  induction calls generalizing vecFiles with
  | nil => simp
  | cons x calls ih =>
      rw [List.foldl_cons, ih, walkDirCallBack, List.append_assoc]
      rfl

/-- What is found below `d`: a file, and a directory with another file and an empty one. -/
def sampleFind (pattern : Path) : List FindData :=
  if pattern = text "d\\*" then
    [⟨text ".", 0x10⟩, ⟨text "b", 0x10⟩, ⟨text "..", 0x10⟩, ⟨text "a", 0x20⟩]
  else if pattern = text "d\\b\\*" then [⟨text "e", 0x10⟩, ⟨text "c", 0x20⟩]
  else []

/-- The names of a directory, checked one by one. -/
theorem tree_of_all {entries : List Entry} (distinct : (entries.map Entry.name).Nodup)
    (names : entries.all (fun e => e.findData.named && !e.name.contains separator) = true)
    (below : ∀ n a sub, Entry.dir n a sub ∈ entries → Tree sub) : Tree entries := by
  have hall := List.all_eq_true.mp names
  refine ⟨distinct, ?_, ?_, below⟩
  · intro e he
    exact (Bool.and_eq_true_iff.mp (hall e he)).1
  · intro e he
    simpa using (Bool.and_eq_true_iff.mp (hall e he)).2

end NanomsgDemo.Utils
