import Haze.Audio.SampleList
import Haze.Transition.Run

/-
  Runs of imports and deletions.

  The name of an import is made unique by a suffix that counts equal names, and its id is
  the length of the list. Neither is fresh in every history. The two theorems say for
  every run when its lists have different names (`sampleNames_distinct_iff`) and different
  ids (`sampleIds_distinct_iff`): exactly when every import finds its name, or its id, free.
-/

open Transition

namespace Haze

/-! ## Operations -/

/-- A call on the list, with what the calls it makes return. -/
inductive SampleListOp where
  | importByFile (path : Option CString) (calls : ImportCalls)
  | deleteByName (name : CString)

/-- An import without an outcome has not written to the list. -/
def SampleListOp.apply (list : SampleList) : SampleListOp → SampleList
  | .importByFile path calls => ((sampleListImportByFile list path calls).map Prod.snd).getD list
  | .deleteByName name => (sampleListDeleteSampleByName list name).2

theorem SampleListOp.apply_importByFile (list : SampleList) (path : Option CString)
    (calls : ImportCalls) : (SampleListOp.importByFile path calls).apply list =
      ((sampleListImportByFile list path calls).map Prod.snd).getD list := rfl

/-- One operation on the list. -/
def SampleListStep (list : SampleList) (op : SampleListOp) (list' : SampleList) : Prop :=
  list' = op.apply list

/-- The operations lead from the new list to `list`. -/
abbrev SampleListRun (ops : List SampleListOp) (list : SampleList) : Prop :=
  Run SampleListStep sampleListNew ops list

/-- The names of the stored samples, in order. -/
def sampleNames (list : SampleList) : List CString := list.filterMap (Option.map (·.sampleName))

/-- The ids of the stored samples, in order. -/
def sampleIds (list : SampleList) : List UInt64 := list.filterMap (Option.map (·.id))

/-! ## What an operation does -/

/-- The operations lead to the list that they leave one after the other. -/
theorem sampleListRun_foldl (ops : List SampleListOp) :
    SampleListRun ops (ops.foldl SampleListOp.apply sampleListNew) := by
  induction ops using List.reverseRecOn with
  | nil => exact .nil
  | append_singleton ops op ih =>
      rw [List.foldl_append]
      exact .snoc ih rfl

/-- The operation is an import and its calls succeed. -/
def SampleListOp.Adds (op : SampleListOp) (list : SampleList) (path : CString) : Prop :=
  ∃ calls, op = .importByFile (some path) calls ∧ Imports list path calls

theorem SampleListOp.Adds.path_eq {op : SampleListOp} {list : SampleList} {path path' : CString}
    (h : op.Adds list path) (h' : op.Adds list path') : path = path' := by
  obtain ⟨calls, rfl, -⟩ := h
  obtain ⟨calls', heq, -⟩ := h'
  cases heq
  rfl

theorem sampleListDeleteSampleByName_sublist (list : SampleList) (name : CString) :
    (sampleListDeleteSampleByName list name).2.Sublist list := by
  unfold sampleListDeleteSampleByName
  split
  · exact List.eraseIdx_sublist _ _
  · exact List.Sublist.refl list

/-- An operation adds one sample at the end, or it takes samples out at most. -/
theorem sampleListStep_cases {list list' : SampleList} {op : SampleListOp}
    (hstep : SampleListStep list op list') :
    (∃ path handle, op.Adds list path ∧ list' = list ++
      [some { id := .ofNat list.length
              sampleName := storedName list (baseName path)
              handle := handle }]) ∨
    ((∀ path, ¬op.Adds list path) ∧ list'.Sublist list) := by
  obtain rfl : list' = _ := hstep
  cases op with
  | deleteByName name =>
      refine .inr ⟨?_, sampleListDeleteSampleByName_sublist list name⟩
      intro path hadds
      obtain ⟨calls, heq, -⟩ := hadds
      cases heq
  | importByFile path calls =>
      by_cases hadds : ∃ p ∈ path, Imports list p calls
      · obtain ⟨path, rfl, himports⟩ := hadds
        obtain ⟨handle, himport⟩ := sampleListImportByFile_imports himports
        refine .inl ⟨path, handle, ⟨calls, rfl, himports⟩, ?_⟩
        rw [SampleListOp.apply_importByFile, himport]
        rfl
      · refine .inr ⟨?_, ?_⟩
        · intro p hp
          obtain ⟨calls, heq, himports⟩ := hp
          cases heq
          exact hadds ⟨p, rfl, himports⟩
        · have hfails : ∀ p ∈ path, ¬Imports list p calls :=
            fun p hp himports => hadds ⟨p, hp, himports⟩
          rw [SampleListOp.apply_importByFile]
          by_cases hname : ∃ p, path = some p ∧ RefusesName p calls
          · rw [sampleListImportByFile_eq_none_iff.mpr hname]
            exact List.Sublist.refl list
          · obtain ⟨result, heq, -⟩ := sampleListImportByFile_refuses hfails
              fun p hp h => hname ⟨p, hp, h⟩
            rw [heq]
            exact List.Sublist.refl list

/-! ## Deletions -/

theorem sampleListGetSampleByName_eq_none {list : SampleList} {name : CString} :
    sampleListGetSampleByName list name = none ↔ name ∉ sampleNames list := by
  unfold sampleListGetSampleByName sampleNames
  rw [List.findSome?_eq_none_iff]
  constructor
  · intro hall hmem
    obtain ⟨entry, hentry, hname⟩ := List.mem_filterMap.mp hmem
    obtain ⟨sample, rfl, rfl⟩ := Option.map_eq_some_iff.mp hname
    simpa using hall _ hentry
  · intro hnot entry hentry
    cases entry with
    | none => rfl
    | some sample =>
        refine Option.filter_eq_none_iff.mpr fun s hs => ?_
        obtain rfl := Option.some.inj hs
        intro heq
        exact hnot (List.mem_filterMap.mpr ⟨some sample, hentry, by simpa using heq⟩)

/-- A deletion that succeeds takes one sample of that name out. -/
theorem sampleNames_delete {list : SampleList} {name : CString}
    (hok : (sampleListDeleteSampleByName list name).1.success) :
    (sampleNames list).Perm (name :: sampleNames (sampleListDeleteSampleByName list name).2) := by
  unfold sampleListDeleteSampleByName at hok ⊢
  split at hok
  · rename_i i hi
    obtain ⟨hlt, hname, -⟩ := List.findIdx?_eq_some_iff_getElem.mp hi
    obtain ⟨sample, hsample, hname⟩ := (Option.any_eq_true _ _).mp hname
    have hperm := (List.getElem_cons_eraseIdx_perm hlt).filterMap (Option.map (·.sampleName))
    rw [hsample, List.filterMap_cons_some (Option.map_some ..), of_decide_eq_true hname] at hperm
    exact hperm.symm
  · cases hok

/-! ## Names -/

/-- The names tell the samples apart: they are different, so after a deletion no sample
has the name that was deleted. -/
def NamesIdentify (list : SampleList) : Prop :=
  (sampleNames list).Nodup ∧ ∀ name, (sampleListDeleteSampleByName list name).1.success →
    sampleListGetSampleByName (sampleListDeleteSampleByName list name).2 name = none

theorem namesIdentify_iff {list : SampleList} :
    NamesIdentify list ↔ (sampleNames list).Nodup := by
  refine ⟨And.left, fun hnodup => ⟨hnodup, fun name hok => ?_⟩⟩
  have hcons := (sampleNames_delete hok).nodup_iff.mp hnodup
  exact sampleListGetSampleByName_eq_none.mpr (List.nodup_cons.mp hcons).1

/-- Among different names an `int` counts one equal name or none. -/
theorem occurrences_of_nodup {list : SampleList} (hnodup : (sampleNames list).Nodup)
    (name : CString) : occurrences list name = if name ∈ sampleNames list then 1 else 0 := by
  have hcount : (list.countP fun existing => existing.any (·.sampleName = name)) =
      (sampleNames list).count name := by
    unfold sampleNames
    rw [List.count_eq_countP, List.countP_filterMap]
    refine List.countP_congr fun entry _ => ?_
    cases entry <;> simp
  unfold occurrences
  rw [hcount]
  split_ifs with hmem
  · rw [List.count_eq_one_of_mem hnodup hmem]
    rfl
  · rw [List.count_eq_zero_of_not_mem hmem]
    rfl

theorem storedName_of_nodup {list : SampleList} (hnodup : (sampleNames list).Nodup)
    (name : CString) : storedName list name =
      if name ∈ sampleNames list then suffixed name 1 else name := by
  unfold storedName
  rw [occurrences_of_nodup hnodup]
  split_ifs
  · rfl
  · contradiction
  · contradiction
  · rfl

/-- A sample that the operation adds finds the base name of its path free, or that name
with `" #1"`. -/
def NameFree (list : SampleList) (op : SampleListOp) : Prop :=
  ∀ path, op.Adds list path →
    baseName path ∉ sampleNames list ∨ suffixed (baseName path) 1 ∉ sampleNames list

theorem namesIdentify_step {list list' : SampleList} {op : SampleListOp}
    (hlist : NamesIdentify list) (hstep : SampleListStep list op list') :
    NamesIdentify list' ↔ NameFree list op := by
  rw [namesIdentify_iff] at hlist ⊢
  rcases sampleListStep_cases hstep with ⟨path, handle, hadds, rfl⟩ | ⟨hnone, hsub⟩
  · have hnames : (sampleNames (list ++ [some { id := .ofNat list.length
                                                sampleName := storedName list (baseName path)
                                                handle := handle }])).Nodup ↔
        storedName list (baseName path) ∉ sampleNames list := by
      unfold sampleNames
      rw [List.filterMap_append, List.filterMap_cons_some (Option.map_some ..),
        List.filterMap_nil, ← List.concat_eq_append, List.nodup_concat]
      exact and_iff_left hlist
    rw [hnames, storedName_of_nodup hlist]
    constructor
    · intro hfree path' hadds'
      obtain rfl := hadds.path_eq hadds'
      by_cases hmem : baseName path ∈ sampleNames list
      · rw [if_pos hmem] at hfree
        exact .inr hfree
      · exact .inl hmem
    · intro hfree
      split_ifs with hmem
      · exact (hfree path hadds).resolve_left (not_not_intro hmem)
      · exact hmem
  · refine iff_of_true ((hsub.filterMap _).nodup hlist) ?_
    intro path hadds
    exact absurd hadds (hnone path)

/-- In a run the samples of every list have different names, and a deleted name is gone,
exactly when every sample that is added finds the base name of its path free, or that
name with `" #1"`. -/
theorem sampleNames_distinct_iff (ops : List SampleListOp) :
    (∀ front list, front <+: ops → SampleListRun front list → NamesIdentify list) ↔
      ∀ front op list list', front ++ [op] <+: ops → SampleListRun front list →
        SampleListStep list op list' → NameFree list op := by
  have hnew : NamesIdentify sampleListNew := namesIdentify_iff.mpr List.nodup_nil
  refine run_always_iff hnew ?_
  intro list op list' hlist hstep
  exact namesIdentify_step hlist hstep

/-- An import of the path all of whose calls succeed. -/
def importOk (path : String) : SampleListOp :=
  .importByFile (some (.ofString path))
    { sampleNew := true, fopen := true, maSoundInitFromFile := some 0, resultAudioStrdup := true
      nameCopy := true, newName := true, realloc := true }

/-- The second and the third import of one file take the same suffix. -/
theorem sampleNames_not_distinct :
    ¬∀ ops front list, front <+: ops → SampleListRun front list → NamesIdentify list := by
  intro hall
  let ops := [importOk "a", importOk "a", importOk "a"]
  have hnames := hall ops ops _ (List.prefix_refl ops) (sampleListRun_foldl ops)
  exact absurd hnames.1 (by decide)

/-! ## Ids -/

/-- A sample that the operation adds finds its id, the length of the list, free. -/
def IdFree (list : SampleList) (op : SampleListOp) : Prop :=
  ∀ path, op.Adds list path → UInt64.ofNat list.length ∉ sampleIds list

theorem sampleIds_nodup_step {list list' : SampleList} {op : SampleListOp}
    (hlist : (sampleIds list).Nodup) (hstep : SampleListStep list op list') :
    (sampleIds list').Nodup ↔ IdFree list op := by
  rcases sampleListStep_cases hstep with ⟨path, handle, hadds, rfl⟩ | ⟨hnone, hsub⟩
  · unfold sampleIds
    rw [List.filterMap_append, List.filterMap_cons_some (Option.map_some ..),
      List.filterMap_nil, ← List.concat_eq_append, List.nodup_concat]
    exact ⟨fun h _ _ => h.1, fun hfree => ⟨hfree path hadds, hlist⟩⟩
  · refine iff_of_true ((hsub.filterMap _).nodup hlist) ?_
    intro path hadds
    exact absurd hadds (hnone path)

/-- In a run the samples of every list have different ids exactly when every sample that
is added finds the length of the list free as an id. -/
theorem sampleIds_distinct_iff (ops : List SampleListOp) :
    (∀ front list, front <+: ops → SampleListRun front list → (sampleIds list).Nodup) ↔
      ∀ front op list list', front ++ [op] <+: ops → SampleListRun front list →
        SampleListStep list op list' → IdFree list op := by
  refine run_always_iff List.nodup_nil ?_
  intro list op list' hlist hstep
  exact sampleIds_nodup_step hlist hstep

/-- After a deletion the length is the id of a sample that stayed. -/
theorem sampleIds_not_distinct :
    ¬∀ ops front list, front <+: ops → SampleListRun front list → (sampleIds list).Nodup := by
  intro hall
  let ops := [importOk "a", importOk "b", .deleteByName (.ofString "a"), importOk "c"]
  have hids := hall ops ops _ (List.prefix_refl ops) (sampleListRun_foldl ops)
  exact absurd hids (by decide)

end Haze
