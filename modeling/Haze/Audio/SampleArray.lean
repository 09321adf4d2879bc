import Haze.Audio.SampleList
import Haze.Collections.Removal

/-
  The array behind a sample list.

  `SampleArray` has the slots and the length of the C structure, and its functions are the
  loops over them. `SampleArray.list` is what the slots hold, and under it the functions are
  those of `SampleList`: a search loop is `List.findIdx?`, the shift after a deletion is
  `List.eraseIdx`, and the last slot after a `realloc` is one more element
  (`list_removeAt`, `list_push`). A call acts on one entry or on none, exactly when it
  uninitialises no sound twice (`sampleArray_operations_iff`).
-/

open Collections

namespace Haze

/-! ## The array -/

/-- `SampleList`: the slots that are allocated, and how many of them are used. -/
structure SampleArray where
  samples : List (Option Sample)
  len : Nat
  fits : len ≤ samples.length

namespace SampleArray

/-- The list the array holds. -/
def list (a : SampleArray) : SampleList := a.samples.take a.len

/-- The first used slot with the name. -/
def search (a : SampleArray) (name : CString) : Option Nat :=
  (List.range a.len).find? fun i => a.samples[i]?.any (isNamed name)

/-- The slot is freed, those behind it move down, and the last one is cleared. -/
def removeAt (a : SampleArray) (i : Nat) : SampleArray where
  samples := (shiftDown (a.samples.set i none) i (a.len - 1 - i)).set (a.len - 1) none
  len := a.len - 1
  fits := by
    rw [List.length_set, length_shiftDown, List.length_set]
    have hfits := a.fits
    omega

def deleteSampleByName (list : Option SampleArray) (name : Option CString) :
    ResultAudio × Option SampleArray :=
  match list, name with
  | some a, some name =>
    match a.search name with
    | some i => (resultAudioOk, some (a.removeAt i))
    | none => (resultAudioErr "sample not found", some a)
  | list, _ => (resultAudioErr "invalid argument", list)

def getSampleByName (list : Option SampleArray) (name : Option CString) : Option Sample :=
  match list, name with
  | some a, some name =>
    (List.range a.len).findSome? fun i => a.samples[i]?.bind (·.filter (·.sampleName = name))
  | _, _ => none

/-- The loop that counts the name, in an `int`. -/
def occurrences (a : SampleArray) (name : CString) : Int32 :=
  (List.range a.len).foldl (fun n i => if a.samples[i]?.any (isNamed name) then n + 1 else n) 0

/-- `realloc` to one more slot than is used, and the sample in it. -/
def push (a : SampleArray) (sample : Sample) : SampleArray where
  samples :=
    (a.samples.take (a.len + 1) ++ List.replicate (a.len + 1 - a.samples.length) none).set a.len
      (some sample)
  len := a.len + 1
  fits := by
    rw [List.length_set, List.length_append, List.length_take, List.length_replicate]
    omega

def importByFile (list : Option SampleArray) (path : Option CString) (calls : ImportCalls) :
    Option (ResultAudio × Option SampleArray) := do
  let some a := list | return (resultAudioErr "invalid argument", list)
  let some path := path | return (resultAudioErr "invalid argument", list)
  if ¬calls.sampleNew then return (resultAudioErr "failed to allocate sample", list)
  let (result, new) ← sampleInitFromFile { sampleNew with id := .ofNat a.len } path calls
  if ¬result.success then
    sampleFree new
    return (result, list)
  let sample ← new.toSample
  let occurrences := a.occurrences sample.sampleName
  if 0 < occurrences ∧ ¬calls.newName then
    sampleFree new
    return (resultAudioErr "failed to allocate sample name", list)
  let sample :=
    if 0 < occurrences then
      { sample with sampleName := suffixed sample.sampleName occurrences }
    else sample
  if ¬calls.realloc then
    sampleFree new
    return (resultAudioErr "failed to resize sample list", list)
  return (resultAudioOk, some (a.push sample))

/-! ## What the slots hold -/

theorem length_list (a : SampleArray) : a.list.length = a.len := by
  unfold list
  rw [List.length_take, Nat.min_eq_left a.fits]

theorem search_eq (a : SampleArray) (name : CString) :
    a.search name = a.list.findIdx? (isNamed name) :=
  find?_range_take (isNamed name) a.fits

/-- The slot that was freed is overwritten or is past the end. -/
theorem list_removeAt (a : SampleArray) {i : Nat} (hi : i < a.len) :
    (a.removeAt i).list = a.list.eraseIdx i := by
  have hfits : a.len ≤ (a.samples.set i none).length := by
    rw [List.length_set]
    exact a.fits
  unfold list removeAt
  rw [List.take_set_of_le (Nat.le_refl _), take_shiftDown hi hfits, List.take_set,
    List.eraseIdx_set_eq]

/-- The slots of the new array that were used keep what they held. -/
theorem list_push (a : SampleArray) (sample : Sample) :
    (a.push sample).list = a.list ++ [some sample] := by
  have hfits := a.fits
  have hroom : a.len < (a.samples.take (a.len + 1) ++
      List.replicate (a.len + 1 - a.samples.length) none).length := by
    rw [List.length_append, List.length_take, List.length_replicate]
    omega
  unfold list push
  rw [List.take_succ_eq_append_getElem (by rw [List.length_set]; exact hroom),
    List.getElem_set_self, List.take_set_of_le (Nat.le_refl _),
    List.take_append_of_le_length (by rw [List.length_take]; omega), List.take_take,
    Nat.min_eq_left (Nat.le_succ _)]

theorem occurrences_eq (a : SampleArray) (name : CString) :
    a.occurrences name = Haze.occurrences a.list name := by
  have hcount : ∀ len ≤ a.samples.length,
      (List.range len).foldl (fun n i => if a.samples[i]?.any (isNamed name) then n + 1 else n) 0 =
        Int32.ofNat ((a.samples.take len).countP (isNamed name)) := by
    intro len hlen
    induction len with
    | zero => rfl
    | succ len ih =>
        have hlast : len < a.samples.length := by omega
        rw [List.range_succ, List.foldl_append, ih (by omega),
          List.take_succ_eq_append_getElem hlast, List.countP_append, Int32.ofNat_add]
        simp only [List.foldl_cons, List.foldl_nil, List.getElem?_eq_getElem hlast,
          Option.any_some, List.countP_singleton]
        split_ifs <;> simp
  exact hcount a.len a.fits

/-! ## The functions of the list -/

theorem deleteSampleByName_some (a : SampleArray) (name : CString) :
    (deleteSampleByName (some a) (some name)).map id (Option.map list) =
      (sampleListDeleteSampleByName a.list name).map id some := by
  unfold deleteSampleByName sampleListDeleteSampleByName
  have hsearch : a.search name = a.list.findIdx? fun sample => sample.any (·.sampleName = name) :=
    search_eq a name
  simp only
  rw [hsearch]
  cases hfind : a.list.findIdx? fun sample => sample.any (·.sampleName = name) with
  | none => rfl
  | some i =>
      obtain ⟨hi, -⟩ := List.findIdx?_eq_some_iff_getElem.mp hfind
      rw [length_list] at hi
      show (resultAudioOk, some (a.removeAt i).list) = _
      rw [list_removeAt a hi]
      rfl

theorem getSampleByName_some (a : SampleArray) (name : CString) :
    getSampleByName (some a) (some name) = sampleListGetSampleByName a.list name :=
  findSome?_range_take _ a.fits

theorem importByFile_some (a : SampleArray) (path : Option CString) (calls : ImportCalls) :
    (importByFile (some a) path calls).map (Prod.map id (Option.map list)) =
      (sampleListImportByFile a.list path calls).map (Prod.map id some) := by
  cases path with
  | none => rfl
  | some path =>
      unfold importByFile sampleListImportByFile
      simp only [occurrences_eq, length_list]
      by_cases hnew : calls.sampleNew
      swap
      · simp [hnew]
      rcases sampleInitFromFile { sampleNew with id := .ofNat a.len } path calls with
        _ | ⟨result, new⟩
      · simp [hnew]
      by_cases hinit : result.success
      swap
      · cases hfree : sampleFree new <;> simp [hnew, hinit, hfree]
      cases hsample : new.toSample with
      | none => simp [hnew, hinit, hsample]
      | some sample =>
          by_cases hroom : 0 < Haze.occurrences a.list sample.sampleName ∧ calls.newName = false
          · cases hfree : sampleFree new <;> simp [hnew, hinit, hsample, hroom, hfree]
          by_cases hrealloc : calls.realloc
          swap
          · cases hfree : sampleFree new <;> simp [hnew, hinit, hsample, hroom, hrealloc, hfree]
          simp [hnew, hinit, hsample, hroom, hrealloc, list_push, storedName]
          split_ifs <;> rfl

/-! ## One call -/

/-- What a list holds, and `SampleListLen`; a `NULL` list has no samples. -/
def stored : Option SampleArray → SampleList
  | some a => a.list
  | none => []

def sampleListLen : Option SampleArray → Nat
  | some a => a.len
  | none => 0

theorem length_stored (list : Option SampleArray) : (stored list).length = sampleListLen list := by
  cases list with
  | none => rfl
  | some a => exact length_list a

/-- An entry with the name; nothing has a `NULL` name. -/
def Named (name : Option CString) (entry : Option Sample) : Prop :=
  ∃ sample, entry = some sample ∧ name = some sample.sampleName

theorem isNamed_iff {name : CString} {entry : Option Sample} :
    isNamed name entry = true ↔ Named (some name) entry := by
  unfold isNamed Named
  cases entry with
  | none => simp
  | some sample => simp [eq_comm]

theorem isNamed_eq_false_iff {name : CString} {entry : Option Sample} :
    isNamed name entry = false ↔ ¬Named (some name) entry := by
  rw [← isNamed_iff, Bool.not_eq_true]

/-- Without a sample of the name nothing is deleted. -/
theorem deleteSampleByName_absent {list : Option SampleArray} {name : Option CString}
    (habsent : ∀ e ∈ stored list, ¬Named name e) :
    (deleteSampleByName list name).1.success = false ∧ (deleteSampleByName list name).2 = list := by
  rcases list with _ | a
  · exact ⟨rfl, rfl⟩
  · rcases name with _ | name
    · exact ⟨rfl, rfl⟩
    · have hsearch : a.search name = none := by
        rw [search_eq, List.findIdx?_eq_none_iff]
        intro e he
        exact isNamed_eq_false_iff.mpr (habsent e he)
      unfold deleteSampleByName
      simp only
      rw [hsearch]
      exact ⟨rfl, rfl⟩

theorem getSampleByName_absent {list : Option SampleArray} {name : Option CString}
    (habsent : ∀ e ∈ stored list, ¬Named name e) : getSampleByName list name = none := by
  rcases list with _ | a
  · rfl
  · rcases name with _ | name
    · rfl
    · rw [getSampleByName_some]
      exact sampleListGetSampleByName_absent fun e he => isNamed_eq_false_iff.mpr (habsent e he)

/-- The first sample with the name goes, and those around it stay. -/
theorem deleteSampleByName_first {list : Option SampleArray} {name : Option CString}
    {front back : SampleList} {sample : Sample}
    (hstored : stored list = front ++ some sample :: back) (hname : Named name (some sample))
    (hfront : ∀ e ∈ front, ¬Named name e) :
    (deleteSampleByName list name).1.success = true ∧
      stored (deleteSampleByName list name).2 = front ++ back ∧
      getSampleByName list name = some sample := by
  obtain ⟨sample', heq, rfl⟩ := hname
  obtain rfl := Option.some.inj heq
  rcases list with _ | a
  · exact absurd hstored.symm (by simp [stored])
  · have hstored : a.list = front ++ some sample :: back := hstored
    have hnot : ∀ e ∈ front, isNamed sample.sampleName e = false :=
      fun e he => isNamed_eq_false_iff.mpr (hfront e he)
    have hdelete := deleteSampleByName_some a sample.sampleName
    rw [hstored, sampleListDeleteSampleByName_first hnot] at hdelete
    refine ⟨?_, ?_, ?_⟩
    · rw [show (deleteSampleByName (some a) (some sample.sampleName)).1 = resultAudioOk from
        congrArg Prod.fst hdelete]
      rfl
    · obtain ⟨a', ha', hlist⟩ := Option.map_eq_some_iff.mp (congrArg Prod.snd hdelete)
      have ha' : (deleteSampleByName (some a) (some sample.sampleName)).2 = some a' := ha'
      rw [ha']
      exact hlist
    · rw [getSampleByName_some, hstored]
      exact sampleListGetSampleByName_first hnot

/-- Where a sample has the name, there is a first one. -/
theorem exists_first {list : SampleList} {name : Option CString} {e : Option Sample} (he : e ∈ list)
    (hname : Named name e) :
    ∃ front sample back, list = front ++ some sample :: back ∧ Named name (some sample) ∧
      ∀ x ∈ front, ¬Named name x := by
  obtain ⟨sample, rfl, rfl⟩ := hname
  have hsome : (list.find? (isNamed sample.sampleName)).isSome := by
    rw [List.find?_isSome]
    exact ⟨some sample, he, isNamed_iff.mpr ⟨sample, rfl, rfl⟩⟩
  obtain ⟨e, hfind⟩ := Option.isSome_iff_exists.mp hsome
  obtain ⟨hnamed, front, back, hlist, hfront⟩ := List.find?_eq_some_iff_append.mp hfind
  obtain ⟨first, rfl, hfirst⟩ := isNamed_iff.mp hnamed
  refine ⟨front, first, back, hlist, ⟨first, rfl, hfirst⟩, ?_⟩
  intro x hx
  rw [← isNamed_eq_false_iff]
  simpa using hfront x hx

/-- The sound of the sample that the import makes is uninitialised twice. -/
theorem importByFile_eq_none_iff {list : Option SampleArray} {path : Option CString}
    {calls : ImportCalls} :
    importByFile list path calls = none ↔
      list.isSome ∧ ∃ p, path = some p ∧ RefusesName p calls := by
  rcases list with _ | a
  · exact iff_of_false nofun fun h => nomatch h.1
  · rw [← Option.map_eq_none_iff (f := Prod.map id (Option.map SampleArray.list)),
      importByFile_some, Option.map_eq_none_iff, sampleListImportByFile_eq_none_iff]
    simp

/-- What an import returns and leaves is what the import into a list does. -/
theorem importByFile_list {a : SampleArray} {path : Option CString} {calls : ImportCalls}
    {out : ResultAudio × Option SampleArray} (hout : importByFile (some a) path calls = some out) :
    ∃ samples, sampleListImportByFile a.list path calls = some (out.1, samples) ∧
      out.2.map list = some samples := by
  have hsome := importByFile_some a path calls
  rw [hout] at hsome
  obtain ⟨⟨result, samples⟩, hlist, heq⟩ := Option.map_eq_some_iff.mp hsome.symm
  obtain ⟨rfl, hsamples⟩ := Prod.mk.inj heq
  exact ⟨samples, hlist, hsamples.symm⟩

theorem importByFile_success_iff {list : Option SampleArray} {path : Option CString}
    {calls : ImportCalls} {out : ResultAudio × Option SampleArray}
    (hout : importByFile list path calls = some out) :
    out.1.success = true ↔ list.isSome ∧ ∃ p, path = some p ∧ Imports (stored list) p calls := by
  rcases list with _ | a
  · obtain rfl := Option.some.inj hout
    exact iff_of_false nofun fun h => nomatch h.1
  · obtain ⟨samples, hlist, -⟩ := importByFile_list hout
    have hsuccess := sampleListImportByFile_success_iff hlist
    rw [hsuccess]
    simp [stored]

/-- An exit that frees the sample first. -/
theorem eq_of_sampleFree {α : Type} {s : NewSample} {x out : α}
    (h : ((sampleFree s).bind fun _ => pure x) = some out) : out = x := by
  obtain ⟨_, -, hx⟩ := Option.bind_eq_some_iff.mp h
  exact (Option.some.inj hx).symm

/-- An import that fails touches nothing. -/
theorem importByFile_failed {list : Option SampleArray} {path : Option CString}
    {calls : ImportCalls} {out : ResultAudio × Option SampleArray}
    (hout : importByFile list path calls = some out) (hfailed : out.1.success = false) :
    out.2 = list := by
  rcases list with _ | a
  · obtain rfl := Option.some.inj hout
    rfl
  · rcases path with _ | path
    · obtain rfl := Option.some.inj hout
      rfl
    -- the exits with an error give the list back, and the last one is a success
    unfold importByFile at hout
    by_cases hnew : calls.sampleNew
    swap
    · simp [hnew] at hout
      rw [← hout]
    rcases hmade : sampleInitFromFile { sampleNew with id := .ofNat a.len } path calls with
      _ | ⟨result, new⟩
    · simp [hnew, hmade] at hout
    by_cases hinit : result.success
    swap
    · simp [hnew, hmade, hinit] at hout
      rw [eq_of_sampleFree hout]
    cases hsample : new.toSample with
    | none => simp [hnew, hmade, hinit, hsample] at hout
    | some sample =>
        simp only [hnew, hmade, hinit, hsample, Option.bind_eq_bind, Option.bind_some,
          not_true_eq_false, if_false] at hout
        split_ifs at hout
        · rw [eq_of_sampleFree hout]
        · obtain rfl := Option.some.inj hout
          cases hfailed
        · obtain rfl := Option.some.inj hout
          cases hfailed
        · rw [eq_of_sampleFree hout]

theorem importByFile_imports {list : Option SampleArray} {path : Option CString}
    {calls : ImportCalls} {out : ResultAudio × Option SampleArray}
    (hout : importByFile list path calls = some out) (hsuccess : out.1.success = true) :
    ∃ sample, stored out.2 = stored list ++ [some sample] := by
  obtain ⟨hsome, p, rfl, himports⟩ := (importByFile_success_iff hout).mp hsuccess
  obtain ⟨a, rfl⟩ := Option.isSome_iff_exists.mp hsome
  obtain ⟨handle, heq⟩ := sampleListImportByFile_imports himports
  obtain ⟨samples, hlist, hsamples⟩ := importByFile_list hout
  have heq : sampleListImportByFile a.list (some p) calls = _ := heq
  rw [heq] at hlist
  obtain ⟨-, rfl⟩ := Prod.mk.inj (Option.some.inj hlist)
  obtain ⟨a', ha', hlist⟩ := Option.map_eq_some_iff.mp hsamples
  rw [ha']
  exact ⟨_, hlist⟩

/-- A deletion fails, and changes nothing, exactly when no sample has the name, and otherwise
takes out the first that has it, which is the one a lookup finds; an import has an outcome,
and one whose calls succeed adds one sample behind the others, and any other fails and
changes nothing. -/
def ActsOnOneEntry (list : Option SampleArray) (name path : Option CString)
    (calls : ImportCalls) : Prop :=
  let deleted := deleteSampleByName list name
  (deleted.1.success = false ↔ ∀ e ∈ stored list, ¬Named name e) ∧
    (deleted.1.success = false → deleted.2 = list ∧ getSampleByName list name = none) ∧
    (∀ front sample back, stored list = front ++ some sample :: back →
      Named name (some sample) → (∀ e ∈ front, ¬Named name e) →
        stored deleted.2 = front ++ back ∧ sampleListLen deleted.2 + 1 = sampleListLen list ∧
          getSampleByName list name = some sample) ∧
    ∃ imported, importByFile list path calls = some imported ∧
      (imported.1.success = true ↔
        list.isSome ∧ ∃ p, path = some p ∧ Imports (stored list) p calls) ∧
      (imported.1.success = true → ∃ sample,
        stored imported.2 = stored list ++ [some sample] ∧
          sampleListLen imported.2 = sampleListLen list + 1) ∧
      (imported.1.success = false → imported.2 = list)

/-- For every list, name and path the operations act on one entry, exactly when the import
does not come to a sample without memory for its name. -/
theorem sampleArray_operations_iff (list : Option SampleArray) (name path : Option CString)
    (calls : ImportCalls) :
    ActsOnOneEntry list name path calls ↔
      ¬(list.isSome ∧ ∃ p, path = some p ∧ RefusesName p calls) := by
  rw [← importByFile_eq_none_iff]
  constructor
  · rintro ⟨-, -, -, imported, himported, -⟩ hnone
    exact nomatch hnone.symm.trans himported
  intro hsome
  obtain ⟨imported, himported⟩ := Option.ne_none_iff_exists'.mp hsome
  have hfailed_iff : (deleteSampleByName list name).1.success = false ↔
      ∀ e ∈ stored list, ¬Named name e := by
    constructor
    · intro hfailed e he hnamed
      obtain ⟨front, sample, back, hstored, hname, hfront⟩ := exists_first he hnamed
      have hsuccess := (deleteSampleByName_first hstored hname hfront).1
      exact Bool.false_ne_true (hfailed.symm.trans hsuccess)
    · intro habsent
      exact (deleteSampleByName_absent habsent).1
  refine ⟨hfailed_iff, ?_, ?_, imported, himported, importByFile_success_iff himported, ?_,
    importByFile_failed himported⟩
  · intro hfailed
    have habsent := hfailed_iff.mp hfailed
    exact ⟨(deleteSampleByName_absent habsent).2, getSampleByName_absent habsent⟩
  · intro front sample back hstored hname hfront
    obtain ⟨-, hdeleted, hfound⟩ := deleteSampleByName_first hstored hname hfront
    refine ⟨hdeleted, ?_, hfound⟩
    rw [← length_stored, ← length_stored, hdeleted, hstored, List.length_append,
      List.length_append, List.length_cons]
    omega
  · intro hsuccess
    obtain ⟨sample, hadded⟩ := importByFile_imports himported hsuccess
    refine ⟨sample, hadded, ?_⟩
    rw [← length_stored, ← length_stored, hadded, List.length_append, List.length_singleton]

/-- The file opens and its sound is made, and there is no memory for the name. -/
def nameRefused : ImportCalls :=
  { sampleNew := true, fopen := true, maSoundInitFromFile := some 0, resultAudioStrdup := true
    nameCopy := false, newName := true, realloc := true }

/-- The import of `kick.wav` into an empty list. -/
theorem nameRefused_not_operates :
    ¬∀ list name path calls, ActsOnOneEntry list name path calls := by
  intro hall
  let empty : SampleArray := { samples := [], len := 0, fits := Nat.le_refl 0 }
  obtain ⟨-, -, -, imported, himported, -⟩ :=
    hall (some empty) none (some (.ofString "kick.wav")) nameRefused
  cases himported

end SampleArray

end Haze
