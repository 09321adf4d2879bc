import Haze.Audio.Channels
import Haze.Audio.SampleListRun

/-
  Samples and the sample list, as programs that allocate: `SampleNew`, `SampleInitFromFile`,
  `SampleRename`, `SampleFree` and the functions of `SampleList`.

  A sample of the list has a name, so the comparisons of names read no null pointer. Each function
  has one lemma, which says what is owned behind it, and for an import and a deletion also that
  the list holds what the functions of `SampleListImportByFile` and
  `SampleListDeleteSampleByName` make of it.

  What the sound engine allocates for a sound is one block. `ma_sound_uninit` frees it and leaves
  the handle as it was, and so `SampleFree` frees it again behind a `SampleInitFromFile` that got
  no memory for the name. This is the one import that fails (`importByFile_cases`).
-/

open Collections Msgpack

namespace Haze

open Alloc Triple

variable {pre : Multiset Address}

/-! ## Results -/

/-- A `ResultAudio` and the block its text is in, if it has one of its own. -/
structure AudioResult where
  result : ResultAudio
  message : Option Address

namespace AudioResult

def owned (r : AudioResult) : Multiset Address := block r.message

/-- A text that is a literal. -/
def lit (result : ResultAudio) : AudioResult := { result := result, message := none }

@[simp] theorem owned_lit (result : ResultAudio) : (lit result).owned = 0 := rfl

/-- `ResultAudioErrF`. -/
def errF (text : Bytes) : Alloc AudioResult := do
  let copy ← malloc
  return { result := resultAudioErrF text copy.isSome, message := copy }

/-- `ResultAudioFree`. -/
def free (r : AudioResult) : Alloc AudioResult := do
  match r.message with
  | none => return r
  | some a =>
    release a
    return { result := { r.result with msg := none }, message := none }

theorem errF_owned (text : Bytes) :
    Triple pre (errF text) fun r owned => owned = r.owned + pre ∧ r.result.success = false := by
  refine Triple.malloc.bind ?_
  rintro copy _ rfl
  exact .pure ⟨rfl, rfl⟩

theorem free_owned (r : AudioResult) :
    Triple (r.owned + pre) r.free fun r owned => owned = r.owned + pre := by
  obtain ⟨result, _ | a⟩ := r
  · exact .pure rfl
  · refine Triple.release.bind ?_
    rintro _ _ rfl
    exact .pure (zero_add _).symm

end AudioResult

/-! ## Samples -/

/-- `Sample`, whose sound handle is part of it. The handle has the block of the sound, or is all
zero. -/
structure SampleCell where
  addr : Address
  id : UInt64
  handle : Option Address
  buf : Option Address
  sampleName : Option TextCell

namespace SampleCell

def owned (s : SampleCell) : Multiset Address :=
  {s.addr} + block s.handle + block s.buf + TextCell.block s.sampleName

def new : Alloc (Option SampleCell) := do
  let some s ← malloc | return none
  let some name ← malloc
    | do
      release s
      return none
  return some { addr := s, id := 0, handle := none, buf := none,
                sampleName := some { addr := name, text := .ofBytes [] } }

/-- A sample that cannot be made, and why. -/
def fails (s : SampleCell) (text : Bytes) : Alloc (AudioResult × SampleCell) := do
  let err ← AudioResult.errF text
  return (err, s)

/-- `SampleInitFromFile` behind the load. If there is no memory for the name the sound is
uninitialised. -/
def takeSound (s : SampleCell) (handle : Address) (path : CString) :
    Alloc (AudioResult × SampleCell) := do
  let s := { s with handle := some handle, buf := none }
  TextCell.free s.sampleName
  let some name ← TextCell.strdup (baseName path)
    | do
      release handle
      return (.lit (resultAudioErr "out of memory"), { s with sampleName := none })
  return (.lit resultAudioOk, { s with sampleName := some name })

/-- `SampleInitFromFile`, of a sample and a path that are there. Whether the file opens is asked,
and there is no sound if there is no block for it. -/
def initFromFile (s : SampleCell) (path : CString) : Alloc (AudioResult × SampleCell) := do
  touch s.addr
  if path.bytes = [] then return (.lit (resultAudioErr "invalid path"), s)
  let opened ← ask
  if opened = false then
    s.fails (quoted "arquivo nao encontrado ou sem permissao de leitura: '" path)
  else
    let some handle ← malloc | s.fails (quoted "failed to load sample from file: '" path)
    s.takeSound handle path

/-- `SampleRename`, of a sample that is there. -/
def rename (s : SampleCell) (newName : Option CString) : Alloc (AudioResult × SampleCell) := do
  let some newName := newName | return (.lit (resultAudioErr "new name is null"), s)
  let some copy ← TextCell.strdup newName | return (.lit (resultAudioErr "out of memory"), s)
  touch s.addr
  TextCell.free s.sampleName
  return (.lit resultAudioOk, { s with sampleName := some copy })

/-- `SampleFree`. -/
def free (s : SampleCell) : Alloc Unit := do
  touch s.addr
  Alloc.free s.handle
  Alloc.free s.buf
  TextCell.free s.sampleName
  release s.addr

/-- A sample is made if there is memory for it and for its empty name. -/
theorem new_cases {s : Allocator} (howns : Owns s.heap pre) :
    (¬(s.grants.headD true = true ∧ s.grants.tail.headD true = true) ∧
        ∃ s', new s = some (none, s') ∧ Owns s'.heap pre) ∨
      ((s.grants.headD true = true ∧ s.grants.tail.headD true = true) ∧
        ∃ sample s', new s = some (some sample, s') ∧ s'.grants = s.grants.tail.tail ∧
          sample.handle = none ∧ sample.buf = none ∧ Owns s'.heap (sample.owned + pre)) := by
  cases hsample : s.grants.headD true with
  | false =>
      exact .inl ⟨fun h => absurd h.1 nofun, _, bind_eq (malloc_refused hsample), howns⟩
  | true =>
      have hnew := malloc_granted hsample
      cases hname : s.grants.tail.headD true with
      | false =>
          have hname' := malloc_refused (s := ⟨(s.heap.alloc ()).2, s.grants.tail⟩) hname
          obtain ⟨heap, hfree, howns'⟩ := Triple.free_run (a := some (s.heap.alloc ()).1)
            (s := ⟨(s.heap.alloc ()).2, s.grants.tail.tail⟩) howns.alloc
          refine .inl ⟨fun h => absurd h.2 nofun, ⟨heap, s.grants.tail.tail⟩, ?_, howns'⟩
          exact (bind_eq hnew).trans ((bind_eq hname').trans (bind_eq hfree))
      | true =>
          have hname' := malloc_granted (s := ⟨(s.heap.alloc ()).2, s.grants.tail⟩) hname
          refine .inr ⟨⟨rfl, rfl⟩, _, _, (bind_eq hnew).trans (bind_eq hname'), rfl, rfl, rfl, ?_⟩
          have howned : SampleCell.owned
              { addr := (s.heap.alloc ()).1, id := 0, handle := none, buf := none
                sampleName := some ⟨((s.heap.alloc ()).2.alloc ()).1, .ofBytes []⟩ } + pre =
              {((s.heap.alloc ()).2.alloc ()).1} + ({(s.heap.alloc ()).1} + pre) := by
            show {(s.heap.alloc ()).1} + 0 + 0 + {((s.heap.alloc ()).2.alloc ()).1} + pre = _
            rw [add_zero, add_zero]
            ac_rfl
          rw [howned]
          exact howns.alloc.alloc

/-- What `SampleInitFromFile` makes of a sample: if it succeeds, the name is that of the file
and there is no text of an error. -/
structure Inits (s : SampleCell) (path : CString) (out : AudioResult × SampleCell) : Prop where
  addr : out.2.addr = s.addr
  id : out.2.id = s.id
  named : out.1.result.success = true →
    out.1.message = none ∧ path.bytes ≠ [] ∧
      ∃ name, out.2.sampleName = some name ∧ name.text = baseName path

theorem fails_owned (s : SampleCell) (text : Bytes) (path : CString) :
    Triple (s.owned + pre) (s.fails text) fun out owned =>
      owned = out.1.owned + out.2.owned + pre ∧ s.Inits path out := by
  refine (AudioResult.errF_owned text).bind ?_
  rintro err _ ⟨rfl, hfails⟩
  exact .pure ⟨(add_assoc _ _ _).symm, rfl, rfl, fun hok => absurd (hok.symm.trans hfails) nofun⟩

/-- If there is no memory for the name, the handle has a block that is freed. -/
theorem takeSound_cases (s : SampleCell) (hhandle : s.handle = none) (hbuf : s.buf = none)
    {path : CString} (hpath : path.bytes ≠ []) {handle : Address} {t : Allocator}
    (howns : Owns t.heap ({handle} + (s.owned + pre))) :
    (t.grants.headD true = false ∧ ∃ s' t',
        s.takeSound handle path t = some ((.lit (resultAudioErr "out of memory"), s'), t') ∧
          s'.handle = some handle ∧ t'.heap.read handle ≠ some () ∧
            t'.heap.read s'.addr = some ()) ∨
      (t.grants.headD true = true ∧ Succeeds t (s.takeSound handle path) fun out owned =>
        owned = out.1.owned + out.2.owned + pre ∧ s.Inits path out) := by
  have hname : {handle} + (s.owned + pre) =
      TextCell.block s.sampleName + ({handle} + ({s.addr} + pre)) := by
    unfold owned
    rw [hhandle, hbuf]
    show {handle} + ({s.addr} + (0 : Multiset Address) + 0 + _ + _) = _
    rw [add_zero, add_zero]
    ac_rfl
  rw [hname] at howns
  obtain ⟨heap, hfree, howns⟩ := Triple.free_run howns
  cases hgrant : t.grants.headD true with
  | false =>
      have hdup : TextCell.strdup (baseName path) ⟨heap, t.grants⟩ =
          some (none, ⟨heap, t.grants.tail⟩) :=
        bind_eq (malloc_refused (s := ⟨heap, t.grants⟩) hgrant)
      have hnot : handle ∉ {s.addr} + pre := (Multiset.nodup_cons.mp howns.once).1
      obtain ⟨heap', hrelease, howns⟩ :=
        Triple.free_run (a := some handle) (s := ⟨heap, t.grants.tail⟩) howns
      refine .inl ⟨rfl, _, _, (bind_eq hfree).trans ((bind_eq hdup).trans (bind_eq hrelease)), rfl,
        fun hlive => hnot ((howns.live _).mpr hlive), (howns.live _).mp ?_⟩
      exact Multiset.mem_add.mpr (.inl (Multiset.mem_singleton_self _))
  | true =>
      have hdup : TextCell.strdup (baseName path) ⟨heap, t.grants⟩ =
          some (some ⟨(heap.alloc ()).1, baseName path⟩, ⟨(heap.alloc ()).2, t.grants.tail⟩) :=
        bind_eq (malloc_granted (s := ⟨heap, t.grants⟩) hgrant)
      refine .inr ⟨rfl, Succeeds.behind hfree (Succeeds.behind hdup ?_)⟩
      refine ⟨_, _, _, rfl, ⟨?_, rfl, rfl, fun _ => ⟨rfl, hpath, _, rfl, rfl⟩⟩, howns.alloc⟩
      show {(heap.alloc ()).1} + ({handle} + ({s.addr} + pre)) =
        0 + ({s.addr} + {handle} + 0 + {(heap.alloc ()).1}) + pre
      rw [add_zero, zero_add]
      ac_rfl

/-- The file opens, the sound is made, and there is no memory for the name. -/
def RefusesName (path : CString) (grants : List Bool) : Prop :=
  path.bytes ≠ [] ∧ grants.headD true = true ∧ grants.tail.headD true = true ∧
    grants.tail.tail.headD true = false

/-- A sample whose name is refused is left with a handle whose block is freed. -/
theorem initFromFile_cases (s : SampleCell) (hhandle : s.handle = none) (hbuf : s.buf = none)
    (path : CString) {t : Allocator} (howns : Owns t.heap (s.owned + pre)) :
    (RefusesName path t.grants ∧ ∃ s' t' handle,
        s.initFromFile path t = some ((.lit (resultAudioErr "out of memory"), s'), t') ∧
          s'.handle = some handle ∧ t'.heap.read handle ≠ some () ∧
            t'.heap.read s'.addr = some ()) ∨
      (¬RefusesName path t.grants ∧ Succeeds t (s.initFromFile path) fun out owned =>
        owned = out.1.owned + out.2.owned + pre ∧ s.Inits path out) := by
  have htouch : Alloc.touch s.addr t = some ((), t) :=
    touch_of_read ((howns.live _).mp (by simp [owned]))
  unfold initFromFile
  by_cases hpath : path.bytes = []
  · refine .inr ⟨fun h => h.1 hpath, Succeeds.behind htouch ?_⟩
    rw [if_pos hpath]
    exact ⟨_, t, _, rfl, ⟨by rw [AudioResult.owned_lit, zero_add], rfl, rfl, nofun⟩, howns⟩
  simp only [if_neg hpath]
  cases hopened : t.grants.headD true with
  | false =>
      have hasked : Alloc.ask t = some (false, ⟨t.heap, t.grants.tail⟩) := by
        rw [Alloc.ask, hopened]
      refine .inr ⟨fun h => Bool.false_ne_true (hopened.symm.trans h.2.1),
        Succeeds.behind htouch (Succeeds.behind hasked ?_)⟩
      exact (s.fails_owned _ path).succeeds howns
  | true =>
      have hasked : Alloc.ask t = some (true, ⟨t.heap, t.grants.tail⟩) := by
        rw [Alloc.ask, hopened]
      cases hloaded : t.grants.tail.headD true with
      | false =>
          have hload := malloc_refused (s := ⟨t.heap, t.grants.tail⟩) hloaded
          refine .inr ⟨fun h => Bool.false_ne_true (hloaded.symm.trans h.2.2.1),
            Succeeds.behind htouch (Succeeds.behind hasked (Succeeds.behind hload ?_))⟩
          exact (s.fails_owned _ path).succeeds howns
      | true =>
          have hload := malloc_granted (s := ⟨t.heap, t.grants.tail⟩) hloaded
          obtain ⟨hname, s', t', htake, hleft⟩ | ⟨hname, htake⟩ :=
            s.takeSound_cases hhandle hbuf hpath
              (t := ⟨(t.heap.alloc ()).2, t.grants.tail.tail⟩) howns.alloc
          · refine .inl ⟨⟨hpath, hopened, hloaded, hname⟩, s', t', _, ?_, hleft⟩
            exact (bind_eq htouch).trans ((bind_eq hasked).trans ((bind_eq hload).trans htake))
          · refine .inr ⟨fun h => Bool.false_ne_true (h.2.2.2.symm.trans hname), ?_⟩
            exact Succeeds.behind htouch (Succeeds.behind hasked (Succeeds.behind hload htake))

theorem rename_owned (s : SampleCell) (newName : Option CString) :
    Triple (s.owned + pre) (s.rename newName) fun out owned =>
      owned = out.1.owned + out.2.owned + pre ∧
        (s.sampleName.isSome → out.2.sampleName.isSome) := by
  unfold rename
  cases newName with
  | none => exact .pure ⟨by rw [AudioResult.owned_lit, zero_add], fun h => h⟩
  | some newName =>
      refine (TextCell.strdup_owned _).bind ?_
      rintro (_ | copy) _ ⟨rfl, -⟩
      · refine .pure ⟨?_, fun h => h⟩
        show 0 + _ = _
        rw [AudioResult.owned_lit, zero_add, zero_add]
      refine (Triple.touch (by simp [owned])).bind ?_
      rintro _ _ rfl
      have hold : TextCell.block (some copy) + (s.owned + pre) = TextCell.block s.sampleName +
          ({s.addr} + block s.handle + block s.buf + TextCell.block (some copy) + pre) := by
        unfold owned
        ac_rfl
      refine ((TextCell.free_owned _).of_eq hold).bind ?_
      rintro _ _ rfl
      refine .pure ⟨?_, fun _ => rfl⟩
      rw [AudioResult.owned_lit, zero_add]
      rfl

theorem free_owned (s : SampleCell) :
    Triple (s.owned + pre) s.free fun _ owned => owned = pre := by
  refine (Triple.touch (by simp [owned])).bind ?_
  rintro _ _ rfl
  have hparts : s.owned + pre =
      block s.handle + (block s.buf + (TextCell.block s.sampleName + ({s.addr} + pre))) := by
    unfold owned
    ac_rfl
  refine (Triple.free.of_eq hparts).bind ?_
  rintro _ _ rfl
  refine Triple.free.bind ?_
  rintro _ _ rfl
  refine (TextCell.free_owned _).bind ?_
  rintro _ _ rfl
  exact Triple.release

end SampleCell

/-! ## The sample list -/

/-- A sample with a name. -/
structure NamedSample where
  cell : SampleCell
  name : TextCell
  named : cell.sampleName = some name

namespace NamedSample

def owned (s : NamedSample) : Multiset Address := s.cell.owned

/-- What the list model knows of it. -/
def entry (s : NamedSample) : Option Sample :=
  some { id := s.cell.id, sampleName := s.name.text, handle := s.cell.addr }

/-- To read the name of a sample. -/
def readName (s : NamedSample) : Alloc Unit := do
  touch s.cell.addr
  touch s.name.addr

/-- `SampleRename`, of a sample with a name. -/
def rename (s : NamedSample) (newName : Option CString) : Alloc (AudioResult × NamedSample) := do
  let (result, cell) ← s.cell.rename newName
  match hname : cell.sampleName with
  | none => failure
  | some name => return (result, { cell := cell, name := name, named := hname })

theorem rename_owned (s : NamedSample) (newName : Option CString) :
    Triple (s.owned + pre) (s.rename newName) fun out owned =>
      owned = out.1.owned + out.2.owned + pre := by
  refine (s.cell.rename_owned newName).bind ?_
  rintro ⟨result, cell⟩ _ ⟨rfl, hsome⟩
  obtain ⟨name, hname⟩ := Option.isSome_iff_exists.mp (hsome (by rw [s.named]; rfl))
  dsimp only at hname ⊢
  split
  · rename_i hnone
    cases hname.symm.trans hnone
  · exact .pure rfl

theorem readName_owned {s : NamedSample} (hle : s.owned ≤ pre) :
    Triple pre s.readName fun _ owned => owned = pre := by
  have haddr : s.cell.addr ∈ s.owned := by simp [owned, SampleCell.owned]
  have hname : s.name.addr ∈ s.owned := by
    simp [owned, SampleCell.owned, s.named, TextCell.block, block]
  refine (Triple.touch (Multiset.mem_of_le hle haddr)).bind ?_
  rintro _ _ rfl
  exact Triple.touch (Multiset.mem_of_le hle hname)

end NamedSample

/-- `SampleList`: the array, which may be null, and the samples in it. -/
structure SampleListCell where
  addr : Address
  array : Option Address
  samples : List NamedSample

namespace SampleListCell

def owned (list : SampleListCell) : Multiset Address :=
  {list.addr} + block list.array + (list.samples.map NamedSample.owned).sum

/-- What the list holds. -/
def list (l : SampleListCell) : SampleList := l.samples.map NamedSample.entry

def new : Alloc (Option SampleListCell) := do
  let some sList ← malloc | return none
  return some { addr := sList, array := none, samples := [] }

def free (list : SampleListCell) : Alloc Unit := do
  touch list.addr
  list.samples.forM fun s => s.cell.free
  Alloc.free list.array
  release list.addr

/-- The new name of a sample whose name is taken; there may be no memory for it. -/
def giveName (list : SampleListCell) (sample : NamedSample) : Alloc (Option NamedSample) := do
  list.samples.forM NamedSample.readName
  let n := occurrences list.list sample.name.text
  if 0 < n then
    let some newName ← TextCell.strdup (suffixed sample.name.text n) | return none
    TextCell.free sample.cell.sampleName
    return some { cell := { sample.cell with sampleName := some newName }
                  name := newName
                  named := rfl }
  else return some sample

/-- `SampleListImportByFile`, to a list that is there. A sample that was made has a name. -/
def importByFile (list : SampleListCell) (path : Option CString) :
    Alloc (AudioResult × SampleListCell) := do
  let some path := path | return (.lit (resultAudioErr "invalid argument"), list)
  touch list.addr
  let some sample ← SampleCell.new
    | return (.lit (resultAudioErr "failed to allocate sample"), list)
  let (result, sample) ← { sample with id := .ofNat list.samples.length }.initFromFile path
  if result.result.success = false then
    sample.free
    return (result, list)
  else
    match hname : sample.sampleName with
    | none => failure
    | some name =>
      let some named ← list.giveName { cell := sample, name := name, named := hname }
        | do
          sample.free
          return (.lit (resultAudioErr "failed to allocate sample name"), list)
      let some newSamples ← realloc list.array
        | do
          named.cell.free
          return (.lit (resultAudioErr "failed to resize sample list"), list)
      return (.lit resultAudioOk,
        { list with array := some newSamples, samples := list.samples ++ [named] })

/-- The loop that looks for a name. -/
def search (name : CString) : List NamedSample → Alloc (Option Nat)
  | [] => return none
  | s :: rest => do
    s.readName
    if s.name.text = name then return some 0
    else
      let i ← search name rest
      return i.map (· + 1)

/-- `SampleListDeleteSampleByName`, from a list that is there. -/
def deleteSampleByName (list : SampleListCell) (name : Option CString) :
    Alloc (AudioResult × SampleListCell) := do
  let some name := name | return (.lit (resultAudioErr "invalid argument"), list)
  touch list.addr
  let found ← search name list.samples
  match found.bind fun i => list.samples[i]?.map fun s => (i, s) with
  | none => return (.lit (resultAudioErr "sample not found"), list)
  | some (i, sample) =>
    sample.cell.free
    return (.lit resultAudioOk, { list with samples := list.samples.eraseIdx i })

/-- `SampleRename`, of a sample of the list. -/
def renameSample (list : SampleListCell) (j : Nat) (newName : Option CString) :
    Alloc (AudioResult × SampleListCell) := do
  let (result, samples) ← modifyAt list.samples j (.lit (resultAudioErr "sample is null"))
    fun s => s.rename newName
  return (result, { list with samples := samples })

/-- The copies of `SampleListStr`. If there is no memory for one, those made before it are
freed. -/
def copyNames : List NamedSample → List TextCell → Alloc (Option (List TextCell))
  | [], done => return some done
  | s :: rest, done => do
    s.readName
    let some copy ← TextCell.strdup s.name.text
      | do
        done.forM fun t => release t.addr
        return none
    copyNames rest (done ++ [copy])

/-- What `SampleListStr` returns: the vector and the names in it. -/
structure StrVec where
  addr : Address
  names : List TextCell

def StrVec.owned (v : StrVec) : Multiset Address :=
  {v.addr} + (v.names.map fun t => {t.addr}).sum

/-- What the caller owes the vector. -/
def StrVec.free (v : StrVec) : Alloc Unit := do
  v.names.forM fun t => release t.addr
  release v.addr

/-- `SampleListStr`. -/
def str (list : SampleListCell) : Alloc (Option StrVec) := do
  touch list.addr
  let some strvec ← malloc | return none
  let some names ← copyNames list.samples []
    | do
      release strvec
      return none
  return some { addr := strvec, names := names }

/-! ### What the functions own -/

theorem new_owned :
    Triple pre new fun l owned =>
      owned = l.elim 0 SampleListCell.owned + pre ∧ ∀ x ∈ l, x.list = sampleListNew := by
  refine Triple.malloc.bind ?_
  rintro (_ | sList) _ rfl
  · exact .pure ⟨rfl, by simp⟩
  · refine .pure ⟨?_, by simp [list, sampleListNew]⟩
    show {sList} + pre = {sList} + 0 + 0 + pre
    rw [add_zero, add_zero]

theorem free_owned (l : SampleListCell) :
    Triple (l.owned + pre) l.free fun _ owned => owned = pre := by
  refine (Triple.touch (by simp [owned])).bind ?_
  rintro _ _ rfl
  have hsamples : l.owned + pre =
      (l.samples.map NamedSample.owned).sum + (block l.array + ({l.addr} + pre)) := by
    unfold owned
    ac_rfl
  refine ((Triple.forM (fun s _ => s.cell.free_owned) l.samples).of_eq hsamples).bind ?_
  rintro _ _ rfl
  refine Triple.free.bind ?_
  rintro _ _ rfl
  exact Triple.release

theorem owned_le_of_mem {l : SampleListCell} {s : NamedSample} (hs : s ∈ l.samples) :
    s.owned ≤ l.owned :=
  (List.single_le_sum (fun _ _ => zero_le) _ (List.mem_map_of_mem hs)).trans
    (le_add_left le_rfl)

theorem readNames_owned (l : SampleListCell) (more : Multiset Address) :
    Triple (more + (l.owned + pre)) (l.samples.forM NamedSample.readName) fun _ owned =>
      owned = more + (l.owned + pre) :=
  Triple.forM_keeps fun _ hs =>
    NamedSample.readName_owned ((owned_le_of_mem hs).trans (le_add_left (le_add_right le_rfl)))

/-- What `giveName` leaves of a sample: it has the name the list stores it under, or there was
no memory for that. -/
structure Given (l : SampleListCell) (s s' : NamedSample) : Prop where
  addr : s'.cell.addr = s.cell.addr
  id : s'.cell.id = s.cell.id
  name : s'.name.text = storedName l.list s.name.text

theorem giveName_owned (l : SampleListCell) (s : NamedSample) :
    Triple (s.owned + (l.owned + pre)) (l.giveName s) fun out owned =>
      owned = (out.getD s).owned + (l.owned + pre) ∧ ∀ s' ∈ out, l.Given s s' := by
  refine (l.readNames_owned s.owned).bind ?_
  rintro _ _ rfl
  dsimp only
  split_ifs with htaken
  · refine (TextCell.strdup_owned _).bind ?_
    rintro (_ | newName) _ ⟨rfl, hname⟩
    · exact .pure ⟨zero_add _, by simp⟩
    · have hold : TextCell.block (some newName) + (s.owned + (l.owned + pre)) =
          TextCell.block s.cell.sampleName + ({s.cell.addr} + block s.cell.handle +
            block s.cell.buf + TextCell.block (some newName) + (l.owned + pre)) := by
        unfold NamedSample.owned SampleCell.owned
        ac_rfl
      refine ((TextCell.free_owned _).of_eq hold).bind ?_
      rintro _ _ rfl
      refine .pure ⟨rfl, fun s' hs' => ?_⟩
      obtain rfl := Option.some.inj hs'
      refine ⟨rfl, rfl, ?_⟩
      rw [storedName, if_pos htaken, hname newName rfl]
  · refine .pure ⟨rfl, fun s' hs' => ?_⟩
    obtain rfl := Option.some.inj hs'
    exact ⟨rfl, rfl, by rw [storedName, if_neg htaken]⟩

/-- The calls of an import of which none succeeds. -/
def noCalls : ImportCalls := ⟨false, false, none, false, false, false, false⟩

/-- An import that left the list as it was is one whose calls fail. -/
theorem imports_of_kept {l l' : SampleListCell} (path : Option CString) (h : l'.list = l.list) :
    ∃ calls, l'.list = SampleListOp.apply l.list (.importByFile path calls) := by
  refine ⟨noCalls, h.trans ?_⟩
  have hfails : ∀ p ∈ path, ¬Imports l.list p noCalls := fun _ _ h => Bool.false_ne_true h.1
  have hname : ∀ p ∈ path, ¬RefusesName p noCalls := fun _ _ h => Bool.false_ne_true h.1
  obtain ⟨result, heq, -⟩ := sampleListImportByFile_refuses hfails hname
  rw [SampleListOp.apply_importByFile, heq]
  rfl

/-- An import that stored a sample is one whose calls succeed. -/
theorem imports_of_stored {l l' : SampleListCell} {path : CString} (hpath : path.bytes ≠ [])
    {s : NamedSample} (hid : s.cell.id = .ofNat l.samples.length)
    (hname : s.name.text = storedName l.list (baseName path))
    (h : l'.samples = l.samples ++ [s]) :
    ∃ calls, l'.list = SampleListOp.apply l.list (.importByFile (some path) calls) := by
  let calls : ImportCalls := ⟨true, true, some s.cell.addr, true, true, true, true⟩
  refine ⟨calls, ?_⟩
  have hlen : l.list.length = l.samples.length := List.length_map _
  have hentry : s.entry = some { id := .ofNat l.list.length
                                 sampleName := storedName l.list (baseName path)
                                 handle := s.cell.addr } := by
    rw [NamedSample.entry, hid, hname, hlen]
  rw [list, h, List.map_append, List.map_singleton, hentry]
  simp [SampleListOp.apply, sampleListImportByFile, sampleInitFromFile, NewSample.toSample, calls,
    hpath, resultAudioOk, list]

/-- The import makes its sample, and then there is no memory for the name. -/
def RefusesName (path : Option CString) (grants : List Bool) : Prop :=
  (grants.headD true = true ∧ grants.tail.headD true = true) ∧
    ∃ p ∈ path, SampleCell.RefusesName p grants.tail.tail

/-- An import fails if it frees a sound twice, and else it accounts for what it allocates. -/
theorem importByFile_cases (l : SampleListCell) (path : Option CString) {t : Allocator}
    (howns : Owns t.heap (l.owned + pre)) :
    (RefusesName path t.grants ∧ l.importByFile path t = none) ∨
      (¬RefusesName path t.grants ∧ Succeeds t (l.importByFile path) fun out owned =>
        owned = out.1.owned + out.2.owned + pre ∧
          ∃ calls, out.2.list = SampleListOp.apply l.list (.importByFile path calls)) := by
  -- an error leaves the list, and its text may be one that is owned
  have hkept : ∀ r : AudioResult, Triple (r.owned + (l.owned + pre))
      (Pure.pure (r, l)) fun out owned => owned = out.1.owned + out.2.owned + pre ∧
        ∃ calls, out.2.list = SampleListOp.apply l.list (.importByFile path calls) :=
    fun r => .pure ⟨(add_assoc _ _ _).symm, imports_of_kept path rfl⟩
  have hlit : ∀ r : ResultAudio, Triple (l.owned + pre)
      (Pure.pure (AudioResult.lit r, l)) fun out owned => owned = out.1.owned + out.2.owned + pre ∧
        ∃ calls, out.2.list = SampleListOp.apply l.list (.importByFile path calls) :=
    fun r => (hkept (.lit r)).of_eq (zero_add _).symm
  unfold importByFile
  cases path with
  | none =>
      refine .inr ⟨fun h => ?_, (hlit _).succeeds howns⟩
      obtain ⟨-, _, hpath, -⟩ := h
      cases hpath
  | some path =>
      have htouch : Alloc.touch l.addr t = some ((), t) :=
        touch_of_read ((howns.live _).mp (by simp [owned]))
      obtain ⟨hnot, t', hnew, howns⟩ | ⟨hmade, sample, t', hnew, hgrants, hhandle, hbuf, howns⟩ :=
        SampleCell.new_cases howns
      · refine .inr ⟨fun h => hnot h.1, Succeeds.behind htouch (Succeeds.behind hnew ?_)⟩
        exact (hlit _).succeeds howns
      obtain ⟨hname, made, t'', handle, hinit, hmade', hfreed, hlive⟩ | ⟨hname, hinit⟩ :=
        SampleCell.initFromFile_cases { sample with id := .ofNat l.samples.length } hhandle hbuf
          path howns
      · -- `SampleFree` uninitialises the sound again
        refine .inl ⟨⟨hmade, path, rfl, hgrants ▸ hname⟩, ?_⟩
        have hfault : made.free t'' = none := by
          refine (bind_eq (touch_of_read hlive)).trans (bind_fault ?_)
          rw [hmade']
          exact release_fault hfreed
        exact (bind_eq htouch).trans ((bind_eq hnew).trans ((bind_eq hinit).trans
          (bind_fault hfault)))
      refine .inr ⟨fun h => ?_, Succeeds.behind htouch (Succeeds.behind hnew (hinit.bind ?_))⟩
      · obtain ⟨-, _, ⟨⟩, h⟩ := h
        exact hname (hgrants ▸ h)
      rintro ⟨result, made⟩ _ ⟨rfl, hinits⟩
      dsimp only
      split_ifs with hok
      · refine ((SampleCell.free_owned made).of_eq (?_ :
          _ = made.owned + (result.owned + (l.owned + pre)))).bind ?_
        · ac_rfl
        rintro _ _ rfl
        exact hkept result
      · obtain ⟨hmessage, hpath, name, hname, htext⟩ := hinits.named (by simpa using hok)
        split
        · rename_i hnone
          exact absurd (hname.symm.trans hnone) (Option.some_ne_none name)
        rename_i name' hname'
        obtain rfl := Option.some.inj (hname.symm.trans hname')
        have hmade : result.owned + made.owned + (l.owned + pre) =
            made.owned + (l.owned + pre) := by
          rw [AudioResult.owned, hmessage]
          exact congrArg (· + (l.owned + pre)) (zero_add made.owned)
        refine ((l.giveName_owned ⟨made, name, hname⟩).of_eq hmade).bind ?_
        rintro (_ | named) _ ⟨rfl, hgiven⟩
        · refine (SampleCell.free_owned made).bind ?_
          rintro _ _ rfl
          exact hlit _
        have harray : named.owned + (l.owned + pre) = block l.array + (named.owned +
            ({l.addr} + (l.samples.map NamedSample.owned).sum + pre)) := by
          unfold owned
          ac_rfl
        refine (Triple.realloc.of_eq harray).bind ?_
        rintro (_ | newSamples) _ rfl
        · refine ((SampleCell.free_owned named.cell).of_eq harray.symm).bind ?_
          rintro _ _ rfl
          exact hlit _
        · obtain ⟨haddr, hid, hstored⟩ := hgiven named rfl
          refine .pure ⟨?_, imports_of_stored hpath (hid.trans hinits.id)
            (hstored.trans (congrArg _ htext)) rfl⟩
          show {newSamples} + _ = 0 + ({l.addr} + {newSamples} +
            ((l.samples ++ [named]).map NamedSample.owned).sum) + pre
          rw [List.map_append, List.sum_append, List.map_singleton, List.sum_singleton, zero_add]
          ac_rfl

theorem search_owned (name : CString) {samples : List NamedSample}
    (hsamples : ∀ s ∈ samples, s.owned ≤ pre) :
    Triple pre (search name samples) fun i owned =>
      owned = pre ∧ i = samples.findIdx? fun s => s.name.text = name := by
  induction samples with
  | nil => exact .pure ⟨rfl, rfl⟩
  | cons s samples ih =>
      obtain ⟨hs, hsamples⟩ := List.forall_mem_cons.mp hsamples
      refine (NamedSample.readName_owned hs).bind ?_
      rintro _ _ rfl
      split_ifs with hname
      · refine .pure ⟨rfl, ?_⟩
        rw [List.findIdx?_cons, decide_eq_true hname]
        rfl
      · refine (ih hsamples).bind ?_
        rintro i _ ⟨rfl, hi⟩
        refine .pure ⟨rfl, ?_⟩
        rw [List.findIdx?_cons, decide_eq_false hname, hi]
        rfl

/-- The search is that of the list model. -/
theorem findIdx?_list (l : SampleListCell) (name : CString) :
    l.list.findIdx? (fun sample => sample.any (·.sampleName = name)) =
      l.samples.findIdx? fun s => s.name.text = name := by
  rw [list, List.findIdx?_map]
  rfl

theorem deleteSampleByName_owned (l : SampleListCell) (name : Option CString) :
    Triple (l.owned + pre) (l.deleteSampleByName name) fun out owned =>
      owned = out.1.owned + out.2.owned + pre ∧
        out.2.list = name.elim l.list fun name => (sampleListDeleteSampleByName l.list name).2 := by
  unfold deleteSampleByName
  cases name with
  | none => exact .pure ⟨by rw [AudioResult.owned_lit, zero_add], rfl⟩
  | some name =>
      refine (Triple.touch (by simp [owned])).bind ?_
      rintro _ _ rfl
      refine (search_owned name fun s hs =>
        (owned_le_of_mem hs).trans (le_add_right le_rfl)).bind ?_
      rintro i _ ⟨rfl, hi⟩
      have hfind := l.findIdx?_list name
      rw [← hi] at hfind
      simp only [Option.elim_some, sampleListDeleteSampleByName, hfind]
      cases i with
      | none => exact .pure ⟨by rw [AudioResult.owned_lit, zero_add], rfl⟩
      | some i =>
          obtain ⟨hlt, -⟩ := List.findIdx?_eq_some_iff_getElem.mp hi.symm
          have hget : l.samples[i]? = some l.samples[i] := List.getElem?_eq_getElem hlt
          rw [Option.bind_some, hget]
          dsimp only [Option.map_some]
          have hsample : l.owned + pre = l.samples[i].owned +
              ({ l with samples := l.samples.eraseIdx i }.owned + pre) := by
            unfold owned
            rw [Triple.sum_eraseIdx NamedSample.owned hlt]
            ac_rfl
          refine ((SampleCell.free_owned _).of_eq hsample).bind ?_
          rintro _ _ rfl
          refine .pure ⟨by rw [AudioResult.owned_lit, zero_add], ?_⟩
          exact (List.eraseIdx_map NamedSample.entry l.samples i).symm

theorem renameSample_owned (l : SampleListCell) (j : Nat) (newName : Option CString) :
    Triple (l.owned + pre) (l.renameSample j newName) fun out owned =>
      owned = out.1.owned + out.2.owned + pre := by
  have hsamples : l.owned + pre =
      (l.samples.map NamedSample.owned).sum + ({l.addr} + block l.array + pre) := by
    unfold owned
    ac_rfl
  have hrename : ∀ (s : NamedSample) pre, Triple (s.owned + pre) (s.rename newName)
      fun out owned => owned = out.1.owned + out.2.owned + pre ∧ True :=
    fun s _ => (s.rename_owned newName).conseq fun _ _ h => ⟨h, trivial⟩
  refine ((Triple.modifyAt AudioResult.owned (fun _ _ => True) hrename rfl
    fun _ => trivial).of_eq hsamples).bind ?_
  rintro ⟨result, samples⟩ _ ⟨rfl, -⟩
  refine .pure ?_
  show _ = result.owned + ({l.addr} + block l.array + (samples.map NamedSample.owned).sum) + pre
  ac_rfl

theorem copyNames_owned {samples : List NamedSample} (done : List TextCell)
    (hsamples : ∀ s ∈ samples, s.owned ≤ pre) :
    Triple ((done.map fun t => ({t.addr} : Multiset Address)).sum + pre) (copyNames samples done)
      fun out owned =>
        owned = (out.elim 0 fun names => (names.map fun t => ({t.addr} : Multiset Address)).sum) +
          pre ∧ ∀ names ∈ out, names.map (·.text) = done.map (·.text) ++
            samples.map (·.name.text) := by
  induction samples generalizing done with
  | nil => exact .pure ⟨rfl, by simp⟩
  | cons s samples ih =>
      obtain ⟨hs, hsamples⟩ := List.forall_mem_cons.mp hsamples
      refine (NamedSample.readName_owned (hs.trans (le_add_left le_rfl))).bind ?_
      rintro _ _ rfl
      refine (TextCell.strdup_owned _).bind ?_
      rintro (_ | copy) _ ⟨rfl, hcopy⟩
      · have hfree : Triple ((done.map fun t => ({t.addr} : Multiset Address)).sum + pre)
            (done.forM fun t => release t.addr) fun _ owned => owned = pre :=
          Triple.forM (fun _ _ => Triple.release) done
        refine (hfree.of_eq (zero_add _)).bind ?_
        rintro _ _ rfl
        exact .pure ⟨(zero_add _).symm, by simp⟩
      · refine ((ih (done ++ [copy]) hsamples).of_eq ?_).conseq ?_
        · rw [List.map_append, List.sum_append, List.map_singleton, List.sum_singleton]
          show {copy.addr} + _ = _
          ac_rfl
        · rintro out _ ⟨rfl, hnames⟩
          refine ⟨rfl, fun names hout => ?_⟩
          rw [hnames names hout, List.map_append, List.map_singleton, List.append_assoc,
            hcopy copy rfl, List.map_cons, List.singleton_append]

theorem StrVec.free_owned (v : StrVec) :
    Triple (v.owned + pre) v.free fun _ owned => owned = pre := by
  have hnames : v.owned + pre =
      (v.names.map fun t => ({t.addr} : Multiset Address)).sum + ({v.addr} + pre) := by
    unfold owned
    ac_rfl
  refine ((Triple.forM (fun _ _ => Triple.release) v.names).of_eq hnames).bind ?_
  rintro _ _ rfl
  exact Triple.release

/-- The vector has a copy of every name, in order. -/
theorem str_owned (l : SampleListCell) :
    Triple (l.owned + pre) l.str fun out owned =>
      owned = out.elim 0 StrVec.owned + (l.owned + pre) ∧
        ∀ v ∈ out, v.names.map (·.text) = l.samples.map (·.name.text) := by
  refine (Triple.touch (by simp [owned])).bind ?_
  rintro _ _ rfl
  refine Triple.malloc.bind ?_
  rintro (_ | strvec) _ rfl
  · exact .pure ⟨rfl, by simp⟩
  refine ((copyNames_owned [] fun s hs => (owned_le_of_mem hs).trans
    (le_add_left (le_add_right le_rfl))).of_eq (zero_add _).symm).bind ?_
  rintro (_ | names) _ ⟨rfl, hnames⟩
  · refine (Triple.release.of_eq (zero_add _)).bind ?_
    rintro _ _ rfl
    exact .pure ⟨(zero_add _).symm, by simp⟩
  · refine .pure ⟨?_, fun v hv => ?_⟩
    · show _ + ({strvec} + (l.owned + pre)) = _
      unfold StrVec.owned
      dsimp only [Option.elim_some]
      ac_rfl
    · obtain rfl := Option.some.inj hv
      exact hnames names rfl

end SampleListCell

end Haze
