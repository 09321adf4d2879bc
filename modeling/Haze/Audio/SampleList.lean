import Haze.Result

/-
  The sample list: `SampleListImportByFile`, `SampleListDeleteSampleByName` and
  `SampleListGetSampleByName`.

  An import calls the file system, the sound engine and the allocator; what these calls
  return is an `ImportCalls`, so an import is a function of the list, the path and that.
  It adds one sample at the end or leaves the list as it was
  (`sampleListImportByFile_imports`, `sampleListImportByFile_refuses`), unless there is no
  memory for the name of the sample: its sound is then uninitialised twice, and the import
  has no outcome (`sampleListImportByFile_eq_none_iff`).
-/

open Msgpack

namespace Haze

/-! ## Samples -/

/-- A `ma_sound`. Once uninitialised it still points at its memory, which is freed. -/
inductive Sound where
  | zeroed
  | ready (handle : Nat)
  | freed

/-- `ma_sound_uninit`. A second one frees the memory of the sound again. -/
def maSoundUninit : Sound → Option Sound
  | .zeroed => some .zeroed
  | .ready _ => some .freed
  | .freed => none

/-- `Sample`, while it is made. -/
structure NewSample where
  id : UInt64
  sampleName : Option CString
  handle : Sound

/-- `Sample`, with a name and the number of its sound, which is initialised. -/
structure Sample where
  id : UInt64
  sampleName : CString
  handle : Nat

/-- The name is read and the sound played, so both have to be there. -/
def NewSample.toSample (s : NewSample) : Option Sample :=
  match s.sampleName, s.handle with
  | some name, .ready handle => some { id := s.id, sampleName := name, handle := handle }
  | _, _ => none

/-- The samples of a list; an entry may be a `NULL` pointer. -/
abbrev SampleList := List (Option Sample)

def sampleListNew : SampleList := []

/-- What an import's calls return: whether there was memory for the sample, for its name,
for the text of an error, for a new name and for the longer list, whether the file opens, and
the number of the sound. -/
structure ImportCalls where
  sampleNew : Bool
  fopen : Bool
  maSoundInitFromFile : Option Nat
  resultAudioStrdup : Bool
  nameCopy : Bool
  newName : Bool
  realloc : Bool

/-- A formatted message that ends in a quoted name. -/
def quoted (text : String) (name : CString) : Bytes :=
  (CString.ofString text).bytes ++ name.bytes ++ (CString.ofString "'").bytes

/-- The part of a path after its last slash. -/
def baseName (path : CString) : CString where
  bytes := path.bytes.rtakeWhile (· ≠ 0x2f)
  nulFree h := path.nulFree ((List.rtakeWhile_suffix _ _).subset h)

def sampleNew : NewSample :=
  { id := 0, sampleName := some (.ofBytes []), handle := .zeroed }

/-- The sample and the path are there. A sound that cannot be made is left zeroed. -/
def sampleInitFromFile (s : NewSample) (path : CString) (calls : ImportCalls) :
    Option (ResultAudio × NewSample) :=
  if path.bytes = [] then some (resultAudioErr "invalid path", s)
  else if ¬calls.fopen then
    some (resultAudioErrF (quoted "arquivo nao encontrado ou sem permissao de leitura: '" path)
      calls.resultAudioStrdup, s)
  else
    match calls.maSoundInitFromFile with
    | none =>
      some (resultAudioErrF (quoted "failed to load sample from file: '" path)
        calls.resultAudioStrdup, { s with handle := .zeroed })
    | some handle =>
      if ¬calls.nameCopy then
        (maSoundUninit (.ready handle)).map fun handle =>
          (resultAudioErr "out of memory", { s with sampleName := none, handle := handle })
      else
        some (resultAudioOk,
          { s with sampleName := some (baseName path), handle := .ready handle })

/-- The sound is uninitialised, and the rest is freed. -/
def sampleFree (s : NewSample) : Option Unit := (maSoundUninit s.handle).map fun _ => ()

/-! ## The list -/

/-- How many samples have the name, counted in an `int`. -/
def occurrences (list : SampleList) (name : CString) : Int32 :=
  .ofNat (list.countP fun existing => existing.any (·.sampleName = name))

/-- The name with `" #%d"` behind it, for a positive number. -/
def suffixed (name : CString) (n : Int32) : CString :=
  .ofBytes (name.bytes ++ (CString.ofString " #").bytes ++
    (Nat.toDigits 10 n.toNatClampNeg).map fun c => .ofNat c.toNat)

/-- The name a sample is stored under. -/
def storedName (list : SampleList) (name : CString) : CString :=
  if 0 < occurrences list name then suffixed name (occurrences list name) else name

/-- The list is there. `none` is a sound that is uninitialised twice. -/
def sampleListImportByFile (list : SampleList) (path : Option CString) (calls : ImportCalls) :
    Option (ResultAudio × SampleList) := do
  let some path := path | return (resultAudioErr "invalid argument", list)
  if ¬calls.sampleNew then return (resultAudioErr "failed to allocate sample", list)
  let (result, new) ← sampleInitFromFile { sampleNew with id := .ofNat list.length } path calls
  if ¬result.success then
    sampleFree new
    return (result, list)
  let sample ← new.toSample
  if 0 < occurrences list sample.sampleName ∧ ¬calls.newName then
    sampleFree new
    return (resultAudioErr "failed to allocate sample name", list)
  let sample := { sample with sampleName := storedName list sample.sampleName }
  if ¬calls.realloc then
    sampleFree new
    return (resultAudioErr "failed to resize sample list", list)
  return (resultAudioOk, list ++ [some sample])

def sampleListDeleteSampleByName (list : SampleList) (name : CString) :
    ResultAudio × SampleList :=
  match list.findIdx? (fun sample => sample.any (·.sampleName = name)) with
  | some i => (resultAudioOk, list.eraseIdx i)
  | none => (resultAudioErr "sample not found", list)

def sampleListGetSampleByName (list : SampleList) (name : CString) : Option Sample :=
  list.findSome? (·.filter (·.sampleName = name))

/-! ## What an import does -/

/-- The calls an import makes all succeed. -/
def Imports (list : SampleList) (path : CString) (calls : ImportCalls) : Prop :=
  calls.sampleNew ∧ path.bytes ≠ [] ∧ calls.fopen ∧ calls.maSoundInitFromFile.isSome ∧
    calls.nameCopy ∧ (0 < occurrences list (baseName path) → calls.newName) ∧ calls.realloc

/-- The sound is made, and there is no memory for the name of the sample. -/
def RefusesName (path : CString) (calls : ImportCalls) : Prop :=
  calls.sampleNew ∧ path.bytes ≠ [] ∧ calls.fopen ∧ calls.maSoundInitFromFile.isSome ∧
    calls.nameCopy = false

theorem sampleListImportByFile_imports {list : SampleList} {path : CString}
    {calls : ImportCalls} (h : Imports list path calls) :
    ∃ handle, sampleListImportByFile list (some path) calls =
      some (resultAudioOk, list ++ [some { id := .ofNat list.length
                                           sampleName := storedName list (baseName path)
                                           handle := handle }]) := by
  obtain ⟨hnew, hpath, hopen, hsound, hcopy, hname, hrealloc⟩ := h
  obtain ⟨handle, hsound⟩ := Option.isSome_iff_exists.mp hsound
  have hroom : ¬(0 < occurrences list (baseName path) ∧ calls.newName = false) := by
    rintro ⟨hpos, hfalse⟩
    rw [hname hpos] at hfalse
    cases hfalse
  refine ⟨handle, ?_⟩
  simp [sampleListImportByFile, sampleInitFromFile, hnew, hpath, hopen, hsound, hcopy, hrealloc,
    hroom, resultAudioOk, NewSample.toSample]

/-- `SampleInitFromFile` uninitialises the sound, and `SampleFree` does it again. -/
theorem sampleListImportByFile_refusesName (list : SampleList) {path : CString}
    {calls : ImportCalls} (h : RefusesName path calls) :
    sampleListImportByFile list (some path) calls = none := by
  obtain ⟨hnew, hpath, hopen, hsound, hcopy⟩ := h
  obtain ⟨handle, hsound⟩ := Option.isSome_iff_exists.mp hsound
  simp [sampleListImportByFile, sampleInitFromFile, hnew, hpath, hopen, hsound, hcopy,
    maSoundUninit, sampleFree, resultAudioErr]

/-- Any other import that fails says so and leaves the list. -/
theorem sampleListImportByFile_refuses {list : SampleList} {path : Option CString}
    {calls : ImportCalls} (h : ∀ p ∈ path, ¬Imports list p calls)
    (hname : ∀ p ∈ path, ¬RefusesName p calls) :
    ∃ result, sampleListImportByFile list path calls = some (result, list) ∧
      result.success = false := by
  cases path with
  | none => exact ⟨_, rfl, rfl⟩
  | some path =>
      -- every exit but the last one returns an error and the list it was given
      have hfails := h path rfl
      have hcopied := hname path rfl
      unfold sampleListImportByFile sampleInitFromFile sampleFree
      by_cases hnew : calls.sampleNew
      swap
      · simp [hnew, resultAudioErr]
      by_cases hpath : path.bytes = []
      · simp [hnew, hpath, resultAudioErr, sampleNew, maSoundUninit]
      by_cases hopen : calls.fopen
      swap
      · simp [hnew, hpath, hopen, resultAudioErrF, sampleNew, maSoundUninit]
      cases hsound : calls.maSoundInitFromFile with
      | none => simp [hnew, hpath, hopen, resultAudioErrF, maSoundUninit]
      | some handle =>
          have hcopy : calls.nameCopy := by
            by_contra hcopy
            exact hcopied ⟨hnew, hpath, hopen, by simp [hsound], eq_false_of_ne_true hcopy⟩
          by_cases hroom : 0 < occurrences list (baseName path) ∧ calls.newName = false
          · simp [hnew, hpath, hopen, hcopy, hroom, resultAudioOk, resultAudioErr,
              NewSample.toSample, maSoundUninit]
          by_cases hrealloc : calls.realloc
          · have hname : 0 < occurrences list (baseName path) → calls.newName := by
              intro hpos
              simpa using not_and.mp hroom hpos
            exact absurd ⟨hnew, hpath, hopen, by simp [hsound], hcopy, hname, hrealloc⟩ hfails
          · simp [hnew, hpath, hopen, hcopy, hroom, hrealloc, resultAudioOk, resultAudioErr,
              NewSample.toSample, maSoundUninit]

theorem sampleListImportByFile_eq_none_iff {list : SampleList} {path : Option CString}
    {calls : ImportCalls} :
    sampleListImportByFile list path calls = none ↔ ∃ p, path = some p ∧ RefusesName p calls := by
  constructor
  · intro hnone
    by_contra hnamed
    have hrefuses : ∀ p ∈ path, ¬RefusesName p calls := fun p hp h => hnamed ⟨p, hp, h⟩
    by_cases hadds : ∃ p ∈ path, Imports list p calls
    · obtain ⟨p, rfl, himports⟩ := hadds
      obtain ⟨handle, heq⟩ := sampleListImportByFile_imports himports
      exact nomatch hnone.symm.trans heq
    · have hfails : ∀ p ∈ path, ¬Imports list p calls := fun p hp h => hadds ⟨p, hp, h⟩
      obtain ⟨result, heq, -⟩ := sampleListImportByFile_refuses hfails hrefuses
      exact nomatch hnone.symm.trans heq
  · rintro ⟨p, rfl, hname⟩
    exact sampleListImportByFile_refusesName list hname

/-- What is returned is a success exactly when the calls of the import all succeed. -/
theorem sampleListImportByFile_success_iff {list : SampleList} {path : Option CString}
    {calls : ImportCalls} {out : ResultAudio × SampleList}
    (hout : sampleListImportByFile list path calls = some out) :
    out.1.success = true ↔ ∃ p, path = some p ∧ Imports list p calls := by
  constructor
  · intro hsuccess
    by_contra hnone
    have hfails : ∀ p ∈ path, ¬Imports list p calls :=
      fun p hp himports => hnone ⟨p, hp, himports⟩
    have hrefuses : ∀ p ∈ path, ¬RefusesName p calls := fun p hp hname =>
      nomatch hout.symm.trans (sampleListImportByFile_eq_none_iff.mpr ⟨p, hp, hname⟩)
    obtain ⟨result, heq, hfailed⟩ := sampleListImportByFile_refuses hfails hrefuses
    obtain rfl := Option.some.inj (hout.symm.trans heq)
    exact Bool.false_ne_true (hfailed.symm.trans hsuccess)
  · rintro ⟨p, rfl, himports⟩
    obtain ⟨handle, heq⟩ := sampleListImportByFile_imports himports
    obtain rfl := Option.some.inj (hout.symm.trans heq)
    rfl

/-! ## Deleting and finding -/

/-- A slot that is not `NULL` and whose sample has the name. -/
def isNamed (name : CString) (entry : Option Sample) : Bool := entry.any (·.sampleName = name)

theorem sampleListGetSampleByName_absent {list : SampleList} {name : CString}
    (habsent : ∀ e ∈ list, isNamed name e = false) :
    sampleListGetSampleByName list name = none := by
  unfold sampleListGetSampleByName
  rw [List.findSome?_eq_none_iff]
  intro e he
  have hname := habsent e he
  cases e with
  | none => rfl
  | some sample => simpa [isNamed] using hname

/-- The first sample with the name is found and taken out. -/
theorem sampleListDeleteSampleByName_first {front back : SampleList} {sample : Sample}
    (hfront : ∀ e ∈ front, isNamed sample.sampleName e = false) :
    sampleListDeleteSampleByName (front ++ some sample :: back) sample.sampleName =
      (resultAudioOk, front ++ back) := by
  have hfind : (front ++ some sample :: back).findIdx?
      (fun existing => existing.any (·.sampleName = sample.sampleName)) = some front.length := by
    have hnone : front.findIdx? (fun existing => existing.any (·.sampleName = sample.sampleName)) =
        none := List.findIdx?_eq_none_iff.mpr hfront
    rw [List.findIdx?_append, hnone, List.findIdx?_cons]
    simp
  unfold sampleListDeleteSampleByName
  rw [hfind]
  simp only
  rw [List.eraseIdx_append_of_length_le (Nat.le_refl _), Nat.sub_self, List.eraseIdx_zero,
    List.tail_cons]

theorem sampleListGetSampleByName_first {front back : SampleList} {sample : Sample}
    (hfront : ∀ e ∈ front, isNamed sample.sampleName e = false) :
    sampleListGetSampleByName (front ++ some sample :: back) sample.sampleName = some sample := by
  have hnone : front.findSome? (·.filter (·.sampleName = sample.sampleName)) = none :=
    sampleListGetSampleByName_absent hfront
  unfold sampleListGetSampleByName
  rw [List.findSome?_append, hnone, List.findSome?_cons]
  simp [Option.filter]

end Haze
