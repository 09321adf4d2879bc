import Haze.Audio.SampleListRun
import Haze.Session.Ownership

/-
  Runs of calls on sessions.

  `SessionStep` is a call, with whatever answers of the allocator, on the sessions there are and
  on what was returned to the caller. A channel that is freed stays in the list of what is attached
  to the sound engine, which writes to its neighbours there. As long as none was freed all that is
  attached is allocated; behind that the engine may write to freed memory, and such runs are not
  part of this module.

  In every state reached, what is allocated is what the sessions and the caller own, and the sound
  groups of freed channels, each block once. A call fails in two cases only: a session is to have a
  random name and there is no memory for it, or a file is imported, its sound is made, and there is
  no memory for its name (`sessions_owned`). As long as no sample is renamed, the samples of a
  session are those of a run of the list model (`sessions_model`).
-/

open Collections Msgpack Transition

namespace Haze

open Alloc Triple

variable {pre : Multiset Address}

/-! ## Calls on one session -/

/-- The samples are those of a run of the list model. -/
def Modelled (list : SampleList) : Prop := ∃ ops, SampleListRun ops list

theorem Modelled.apply {list : SampleList} (h : Modelled list) (op : SampleListOp) :
    Modelled (op.apply list) := by
  obtain ⟨ops, hrun⟩ := h
  exact ⟨ops ++ [op], .snoc hrun rfl⟩

/-- A call that keeps the session. -/
inductive SessionEdit where
  | setName (sessionName : Option CString)
  | addChannel
  | renameChannel (j : Nat) (newName : Option CString)
  | importSample (path : Option CString)
  | deleteSample (name : Option CString)
  | renameSample (j : Nat) (newName : Option CString)

namespace SessionEdit

/-- What a call returns, and the sound groups it leaves without a channel. -/
structure Outcome where
  result : AudioResult
  lost : List Address

def Outcome.owned (out : Outcome) : Multiset Address := out.result.owned + out.lost

/-- A call that leaves no sound group. -/
def Outcome.of (result : AudioResult) : Outcome := { result := result, lost := [] }

@[simp] theorem Outcome.owned_of (result : AudioResult) : (of result).owned = result.owned :=
  add_zero _

/-- `ChannelListAdd`, to the list of a session. -/
def addTo (s : SessionCell) : Alloc (Outcome × SessionCell) := do
  let some list := s.channelList | return (.of (.lit (resultAudioErr "invalid argument")), s)
  let ((result, lost), list) ← list.add
  return ({ result := .lit result, lost := lost }, { s with channelList := some list })

/-- `ChannelRename`, of a channel of a session. -/
def renameIn (s : SessionCell) (j : Nat) (newName : Option CString) :
    Alloc (AudioResult × SessionCell) := do
  let some list := s.channelList | return (.lit (resultAudioErr "invalid argument"), s)
  let (result, channels) ← modifyAt list.channels j (resultAudioErr "invalid argument")
    fun c => c.rename newName
  return (.lit result, { s with channelList := some { list with channels := channels } })

/-- A call on the sample list of a session. -/
def onSamples (s : SessionCell)
    (prog : SampleListCell → Alloc (AudioResult × SampleListCell)) :
    Alloc (AudioResult × SessionCell) := do
  let some list := s.sampleList | return (.lit (resultAudioErr "invalid argument"), s)
  let (result, list) ← prog list
  return (result, { s with sampleList := some list })

/-- A call that frees no channel. -/
def only (prog : Alloc (AudioResult × SessionCell)) : Alloc (Outcome × SessionCell) := do
  let (result, s) ← prog
  return (.of result, s)

/-- The call, and what comes of it. -/
def run (s : SessionCell) : SessionEdit → Alloc (Outcome × SessionCell)
  | .setName sessionName => do
    let (renamed, s) ← s.setName sessionName
    return (.of (.lit { success := renamed, msg := none }), s)
  | .addChannel => addTo s
  | .renameChannel j newName => only (renameIn s j newName)
  | .importSample path => only (onSamples s fun list => list.importByFile path)
  | .deleteSample name => only (onSamples s fun list => list.deleteSampleByName name)
  | .renameSample j newName => only (onSamples s fun list => list.renameSample j newName)

/-- The call is not `SampleRename`. -/
def KeepsNames : SessionEdit → Prop
  | .renameSample _ _ => False
  | _ => True

/-- The call is not `ChannelListAdd`, which frees the channel it cannot name. -/
def KeepsChannels : SessionEdit → Prop
  | .addChannel => False
  | _ => True

/-- The call is an import that uninitialises a sound twice. -/
def UninitsTwice (e : SessionEdit) (s : SessionCell) (grants : List Bool) : Prop :=
  ∃ path, e = .importSample path ∧ s.sampleList.isSome ∧ SampleListCell.RefusesName path grants

end SessionEdit

/-- A session owns its sample list and the rest of it. -/
theorem SessionCell.owned_at {s : SessionCell} {list : SampleListCell}
    (hlist : s.sampleList = some list) :
    s.owned + pre = list.owned + ({s.addr} + TextCell.block s.sessionName + block s.projectPath +
      s.channelList.elim 0 ChannelListCell.owned + pre) := by
  unfold owned
  rw [hlist, Option.elim_some]
  ac_rfl

/-- A session owns its channel list and the rest of it. -/
theorem SessionCell.owned_at_channels {s : SessionCell} {list : ChannelListCell}
    (hlist : s.channelList = some list) :
    s.owned + pre = list.owned + ({s.addr} + TextCell.block s.sessionName + block s.projectPath +
      s.sampleList.elim 0 SampleListCell.owned + pre) := by
  unfold owned
  rw [hlist, Option.elim_some]
  ac_rfl

namespace SessionEdit

theorem addTo_owned (s : SessionCell) :
    Triple (s.owned + pre) (addTo s) fun out owned =>
      owned = out.1.owned + out.2.owned + pre ∧ out.2.samples = s.samples := by
  unfold addTo
  cases hlist : s.channelList with
  | none => exact .pure ⟨by rw [Outcome.owned_of, AudioResult.owned_lit, zero_add], rfl⟩
  | some list =>
      refine (list.add_owned.of_eq (SessionCell.owned_at_channels hlist)).bind ?_
      rintro ⟨⟨result, lost⟩, list⟩ _ rfl
      refine .pure ⟨?_, rfl⟩
      unfold Outcome.owned SessionCell.owned
      rw [AudioResult.owned_lit, zero_add]
      dsimp only [Option.elim_some]
      ac_rfl

theorem renameIn_owned (s : SessionCell) (j : Nat) (newName : Option CString) :
    Triple (s.owned + pre) (renameIn s j newName) fun out owned =>
      owned = out.1.owned + out.2.owned + pre ∧ out.2.samples = s.samples := by
  unfold renameIn
  cases hlist : s.channelList with
  | none => exact .pure ⟨by rw [AudioResult.owned_lit, zero_add], rfl⟩
  | some list =>
      have hparts : s.owned + pre = (list.channels.map ChannelCell.owned).sum +
          ({s.addr} + TextCell.block s.sessionName + block s.projectPath +
            s.sampleList.elim 0 SampleListCell.owned + ({list.addr} + {list.array}) + pre) := by
        rw [SessionCell.owned_at_channels hlist, ChannelListCell.owned]
        ac_rfl
      have hrename : ∀ (c : ChannelCell) pre, Triple (c.owned + pre) (c.rename newName)
          fun out owned => owned = 0 + out.2.owned + pre ∧ True :=
        fun c _ => (c.rename_owned newName).conseq fun _ _ h => ⟨by rw [zero_add, h], trivial⟩
      refine ((Triple.modifyAt (fun _ => 0) (fun _ _ => True) hrename rfl
        fun _ => trivial).of_eq hparts).bind ?_
      rintro ⟨result, channels⟩ _ ⟨rfl, -⟩
      refine .pure ⟨?_, rfl⟩
      rw [AudioResult.owned_lit, zero_add, zero_add]
      unfold SessionCell.owned
      dsimp only [Option.elim_some]
      unfold ChannelListCell.owned
      ac_rfl

theorem onSamples_owned (s : SessionCell)
    {prog : SampleListCell → Alloc (AudioResult × SampleListCell)}
    {P : SampleList → SampleList → Prop}
    (hprog : ∀ (l : SampleListCell) pre, Triple (l.owned + pre) (prog l) fun out owned =>
      owned = out.1.owned + out.2.owned + pre ∧ P l.list out.2.list)
    (hrefl : ∀ list, P list list) :
    Triple (s.owned + pre) (onSamples s prog) fun out owned =>
      owned = out.1.owned + out.2.owned + pre ∧ P s.samples out.2.samples := by
  unfold onSamples
  cases hlist : s.sampleList with
  | none => exact .pure ⟨by rw [AudioResult.owned_lit, zero_add], hrefl _⟩
  | some list =>
      refine ((hprog list _).of_eq (SessionCell.owned_at hlist)).bind ?_
      rintro ⟨result, list'⟩ _ ⟨rfl, hP⟩
      refine .pure ⟨?_, ?_⟩
      · unfold SessionCell.owned
        dsimp only [Option.elim_some]
        ac_rfl
      · unfold SessionCell.samples
        rw [hlist]
        exact hP

theorem importSample_cases (s : SessionCell) (path : Option CString) {t : Allocator}
    (howns : Owns t.heap (s.owned + pre)) :
    ((importSample path).UninitsTwice s t.grants ∧
        onSamples s (fun list => list.importByFile path) t = none) ∨
      (¬(importSample path).UninitsTwice s t.grants ∧
        Succeeds t (onSamples s fun list => list.importByFile path) fun out owned =>
          owned = out.1.owned + out.2.owned + pre ∧
            (Modelled s.samples → Modelled out.2.samples)) := by
  unfold onSamples
  cases hlist : s.sampleList with
  | none =>
      refine .inr ⟨fun h => ?_, _, t, _, rfl, ⟨?_, id⟩, howns⟩
      · obtain ⟨_, -, hsome, -⟩ := h
        rw [hlist] at hsome
        cases hsome
      · rw [AudioResult.owned_lit, zero_add]
  | some list =>
      rw [SessionCell.owned_at hlist] at howns
      obtain ⟨hrefuses, hnone⟩ | ⟨hgrants, hrun⟩ := list.importByFile_cases path howns
      · exact .inl ⟨⟨path, rfl, hlist ▸ rfl, hrefuses⟩, bind_fault hnone⟩
      refine .inr ⟨fun h => ?_, hrun.bind ?_⟩
      · obtain ⟨_, hpath, -, hrefuses⟩ := h
        cases hpath
        exact hgrants hrefuses
      · rintro ⟨result, list'⟩ _ ⟨rfl, calls, hmodel⟩
        refine .pure ⟨?_, fun h => ?_⟩
        · unfold SessionCell.owned
          dsimp only [Option.elim_some]
          ac_rfl
        · unfold SessionCell.samples at h ⊢
          rw [hlist] at h
          show Modelled list'.list
          rw [hmodel]
          exact h.apply (.importByFile path calls)

/-- What a call makes of a session: it accounts for what it allocates, and only a renamed sample
leaves the list model. -/
structure Accounts (e : SessionEdit) (s : SessionCell) (pre : Multiset Address)
    (out : Outcome × SessionCell) (owned : Multiset Address) : Prop where
  owned : owned = out.1.owned + out.2.owned + pre
  modelled : e.KeepsNames → Modelled s.samples → Modelled out.2.samples
  lost : e.KeepsChannels → out.1.lost = []

/-- A call that frees no channel accounts for what it allocates if its own result does. -/
theorem only_accounts {e : SessionEdit} {s : SessionCell} {t : Allocator}
    {prog : Alloc (AudioResult × SessionCell)}
    (h : Succeeds t prog fun out owned => owned = out.1.owned + out.2.owned + pre ∧
      (e.KeepsNames → Modelled s.samples → Modelled out.2.samples)) :
    Succeeds t (only prog) (e.Accounts s pre) := by
  refine h.bind ?_
  rintro ⟨result, s'⟩ _ ⟨rfl, hmodel⟩
  exact .pure ⟨by rw [Outcome.owned_of], hmodel, fun _ => rfl⟩

/-- Every call on a session accounts for what it allocates, but for the import that uninitialises
a sound twice. -/
theorem run_cases (s : SessionCell) (e : SessionEdit) {t : Allocator}
    (howns : Owns t.heap (s.owned + pre)) :
    (e.UninitsTwice s t.grants ∧ e.run s t = none) ∨
      (¬e.UninitsTwice s t.grants ∧ Succeeds t (e.run s) (e.Accounts s pre)) := by
  cases e with
  | setName sessionName =>
      refine .inr ⟨nofun, Triple.succeeds ((s.setName_owned sessionName).bind ?_) howns⟩
      rintro ⟨renamed, s'⟩ _ ⟨rfl, hsamples⟩
      refine .pure ⟨?_, fun _ h => hsamples ▸ h, fun _ => rfl⟩
      rw [Outcome.owned_of, AudioResult.owned_lit, zero_add]
  | addChannel =>
      refine .inr ⟨nofun, Triple.succeeds ((addTo_owned s).conseq ?_) howns⟩
      rintro out _ ⟨rfl, hsamples⟩
      exact ⟨rfl, fun _ h => hsamples ▸ h, False.elim⟩
  | renameChannel j newName =>
      refine .inr ⟨nofun, only_accounts (Triple.succeeds ?_ howns)⟩
      refine (renameIn_owned s j newName).conseq ?_
      rintro out _ ⟨rfl, hsamples⟩
      exact ⟨rfl, fun _ h => hsamples ▸ h⟩
  | importSample path =>
      refine (importSample_cases s path howns).imp (fun ⟨htwice, hnone⟩ => ?_)
        fun ⟨htwice, x, t', owned, hrun, ⟨howned, hmodel⟩, howns'⟩ => ?_
      · exact ⟨htwice, bind_fault hnone⟩
      · exact ⟨htwice, only_accounts ⟨x, t', owned, hrun, ⟨howned, fun _ => hmodel⟩, howns'⟩⟩
  | deleteSample name =>
      refine .inr ⟨nofun, only_accounts (Triple.succeeds ?_ howns)⟩
      refine (onSamples_owned (P := fun l l' => Modelled l → Modelled l') s
        (fun l pre => (l.deleteSampleByName_owned name).conseq ?_) fun _ h => h).conseq ?_
      · rintro out _ ⟨rfl, hlist⟩
        refine ⟨rfl, fun h => hlist ▸ ?_⟩
        cases name with
        | none => exact h
        | some name => exact h.apply (.deleteByName name)
      · rintro out _ ⟨rfl, hmodel⟩
        exact ⟨rfl, fun _ => hmodel⟩
  | renameSample j newName =>
      refine .inr ⟨nofun, only_accounts (Triple.succeeds ?_ howns)⟩
      refine (onSamples_owned (P := fun _ _ => True) s
        (fun l pre => (l.renameSample_owned j newName).conseq ?_) fun _ => trivial).conseq ?_
      · rintro out _ rfl
        exact ⟨rfl, trivial⟩
      · rintro out _ ⟨rfl, -⟩
        exact ⟨rfl, False.elim⟩

end SessionEdit

/-- `SampleListStr`, of the list of a session. -/
def SessionCell.names (s : SessionCell) : Alloc (Option SampleListCell.StrVec × SessionCell) := do
  let some list := s.sampleList | return (none, s)
  let v ← list.str
  return (v, s)

theorem SessionCell.names_owned (s : SessionCell) :
    Triple (s.owned + pre) s.names fun out owned =>
      owned = out.1.elim 0 SampleListCell.StrVec.owned + out.2.owned + pre ∧ out.2 = s := by
  unfold names
  cases hlist : s.sampleList with
  | none => exact .pure ⟨by rw [Option.elim_none, zero_add], rfl⟩
  | some list =>
      refine (list.str_owned.of_eq (owned_at hlist)).bind ?_
      rintro v _ ⟨rfl, -⟩
      refine .pure ⟨?_, rfl⟩
      rw [← owned_at hlist]
      exact (add_assoc _ _ _).symm

/-! ## Calls on all of them -/

/-- The sessions there are, what was returned to the caller, and the sound groups of the channels
that were freed. -/
structure SessionStore where
  sessions : List SessionCell
  results : List AudioResult
  vectors : List SampleListCell.StrVec
  lost : List Address

/-- A call, with the random numbers it draws. -/
inductive SessionCall where
  | new (sessionName : Option CString) (first second : Fin 15)
  | edit (i : Nat) (e : SessionEdit)
  | names (i : Nat)
  | freeResult (k : Nat)
  | freeNames (k : Nat)
  | free (i : Nat)

namespace SessionCall

/-- The call is not `SampleRename`. -/
def KeepsNames : SessionCall → Prop
  | .edit _ e => e.KeepsNames
  | _ => True

/-- The call is one that frees no channel. -/
def KeepsChannels : SessionCall → Prop
  | .edit _ e => e.KeepsChannels
  | .free _ => False
  | _ => True

end SessionCall

namespace SessionStore

def owned (store : SessionStore) : Multiset Address :=
  (store.sessions.map SessionCell.owned).sum + ((store.results.map AudioResult.owned).sum +
    (store.vectors.map SampleListCell.StrVec.owned).sum + store.lost)

/-- The call, which is not made on a session, a result or a vector that is not there. -/
def call (store : SessionStore) : SessionCall → Alloc SessionStore
  | .new sessionName first second => do
    let s ← SessionCell.new sessionName first second
    return { store with sessions := store.sessions ++ s.toList }
  | .edit i e => do
    let some s := store.sessions[i]? | return store
    let (out, s) ← e.run s
    return { store with sessions := store.sessions.set i s
                        results := store.results ++ [out.result]
                        lost := store.lost ++ out.lost }
  | .names i => do
    let (v, sessions) ← modifyAt store.sessions i none SessionCell.names
    return { store with sessions := sessions, vectors := store.vectors ++ v.toList }
  | .freeResult k => do
    let (_, results) ← modifyAt store.results k () fun r => do
      let r ← r.free
      return ((), r)
    return { store with results := results }
  | .freeNames k => do
    let vectors ← removeAt store.vectors k SampleListCell.StrVec.free
    return { store with vectors := vectors }
  | .free i => do
    let some s := store.sessions[i]? | return store
    s.free
    return { store with sessions := store.sessions.eraseIdx i, lost := store.lost ++ s.groups }

/-- Every session is modelled. -/
def AllModelled (store : SessionStore) : Prop := ∀ s ∈ store.sessions, Modelled s.samples

/-- What a call makes of the sessions: it accounts for what it allocates. -/
structure Accounts (store : SessionStore) (c : SessionCall) (store' : SessionStore)
    (owned : Multiset Address) : Prop where
  owned : owned = store'.owned
  modelled : c.KeepsNames → store.AllModelled → store'.AllModelled
  lost : c.KeepsChannels → store.lost = [] → store'.lost = []

theorem Accounts.refl (store : SessionStore) (c : SessionCall) :
    store.Accounts c store store.owned := ⟨rfl, fun _ h => h, fun _ h => h⟩

theorem new_accounts (store : SessionStore) {sessionName : Option CString} {first second : Fin 15}
    {out : Option SessionCell} {owned : Multiset Address}
    (howned : owned = out.elim 0 SessionCell.owned + store.owned)
    (hnew : ∀ s ∈ out, s.samples = sampleListNew) :
    store.Accounts (.new sessionName first second)
      { store with sessions := store.sessions ++ out.toList } owned := by
  refine ⟨?_, fun _ hmodelled s hs => ?_, fun _ h => h⟩
  · rw [howned]
    unfold SessionStore.owned
    rw [List.map_append, List.sum_append]
    cases out with
    | none => simp
    | some s =>
        rw [Option.toList_some, List.map_singleton, List.sum_singleton, Option.elim_some]
        ac_rfl
  · obtain hs | hs := List.mem_append.mp hs
    · exact hmodelled s hs
    · rw [hnew s (Option.mem_toList.mp hs)]
      exact ⟨[], .nil⟩

theorem names_accounts (store : SessionStore) (i : Nat) :
    Triple store.owned (store.call (.names i)) (store.Accounts (.names i)) := by
  refine (Triple.modifyAt (Option.elim · 0 SampleListCell.StrVec.owned)
    (fun s s' => s' = s) (fun s pre => s.names_owned) rfl fun _ => rfl).bind ?_
  rintro ⟨v, sessions⟩ _ ⟨rfl, hsame⟩
  refine .pure ⟨?_, fun _ hmodelled s hs => ?_, fun _ h => h⟩
  · have hv : ((store.vectors ++ v.toList).map SampleListCell.StrVec.owned).sum =
        (store.vectors.map SampleListCell.StrVec.owned).sum +
          v.elim 0 SampleListCell.StrVec.owned := by
      rw [List.map_append, List.sum_append]
      cases v <;> simp
    unfold SessionStore.owned
    rw [hv]
    ac_rfl
  · obtain ⟨s', hs', rfl⟩ := hsame s hs
    exact hmodelled s hs'

theorem freeResult_accounts (store : SessionStore) (k : Nat) :
    Triple store.owned (store.call (.freeResult k)) (store.Accounts (.freeResult k)) := by
  have hresults : store.owned = (store.results.map AudioResult.owned).sum +
      ((store.sessions.map SessionCell.owned).sum +
        ((store.vectors.map SampleListCell.StrVec.owned).sum + store.lost)) := by
    unfold SessionStore.owned
    ac_rfl
  have hfree : ∀ (r : AudioResult) pre, Triple (r.owned + pre)
      (do
        let r ← r.free
        return ((), r)) fun out owned => owned = 0 + out.2.owned + pre ∧ True := by
    intro r pre
    refine r.free_owned.bind ?_
    rintro r _ rfl
    exact .pure ⟨by rw [zero_add], trivial⟩
  refine ((Triple.modifyAt (fun _ => 0) (fun _ _ => True) hfree rfl
    fun _ => trivial).of_eq hresults).bind ?_
  rintro ⟨_, results⟩ _ ⟨rfl, -⟩
  refine .pure ⟨?_, fun _ h => h, fun _ h => h⟩
  unfold SessionStore.owned
  rw [zero_add]
  ac_rfl

theorem freeNames_accounts (store : SessionStore) (k : Nat) :
    Triple store.owned (store.call (.freeNames k)) (store.Accounts (.freeNames k)) := by
  have hvectors : store.owned = (store.vectors.map SampleListCell.StrVec.owned).sum +
      ((store.sessions.map SessionCell.owned).sum +
        ((store.results.map AudioResult.owned).sum + store.lost)) := by
    unfold SessionStore.owned
    ac_rfl
  refine ((Triple.removeAt fun v _ => v.free_owned).of_eq hvectors).bind ?_
  rintro vectors _ ⟨rfl, -⟩
  refine .pure ⟨?_, fun _ h => h, fun _ h => h⟩
  unfold SessionStore.owned
  ac_rfl

/-- What the session at an index owns, and the rest. -/
theorem owned_at {store : SessionStore} {i : Nat} {s : SessionCell}
    (hs : store.sessions[i]? = some s) :
    store.owned = s.owned + (((store.sessions.eraseIdx i).map SessionCell.owned).sum +
      ((store.results.map AudioResult.owned).sum +
        (store.vectors.map SampleListCell.StrVec.owned).sum + store.lost)) := by
  obtain ⟨hi, rfl⟩ := List.getElem?_eq_some_iff.mp hs
  unfold SessionStore.owned
  rw [Triple.sum_eraseIdx SessionCell.owned hi, add_assoc]

/-- A freed session leaves the sound groups of its channels. -/
theorem free_accounts (store : SessionStore) (i : Nat) :
    Triple store.owned (store.call (.free i)) (store.Accounts (.free i)) := by
  rw [call]
  cases hs : store.sessions[i]? with
  | none => exact .pure (Accounts.refl store _)
  | some s =>
      refine (s.free_owned.of_eq (owned_at hs)).bind ?_
      rintro _ _ rfl
      refine .pure ⟨?_, fun _ h x hx => h x (List.mem_of_mem_eraseIdx hx), False.elim⟩
      unfold SessionStore.owned
      rw [← Multiset.coe_add]
      ac_rfl

/-- A call on a session accounts for what it allocates, but for the import that uninitialises a
sound twice. -/
theorem edit_cases (store : SessionStore) (i : Nat) (e : SessionEdit) {t : Allocator}
    (howns : Owns t.heap store.owned) :
    ((∃ s, store.sessions[i]? = some s ∧ e.UninitsTwice s t.grants) ∧
        store.call (.edit i e) t = none) ∨
      ((¬∃ s, store.sessions[i]? = some s ∧ e.UninitsTwice s t.grants) ∧
        Succeeds t (store.call (.edit i e)) (store.Accounts (.edit i e))) := by
  rw [call]
  cases hs : store.sessions[i]? with
  | none => exact .inr ⟨nofun, Triple.succeeds (.pure (Accounts.refl store _)) howns⟩
  | some s =>
      rw [owned_at hs] at howns
      obtain ⟨hi, -⟩ := List.getElem?_eq_some_iff.mp hs
      obtain ⟨htwice, hnone⟩ | ⟨htwice, hrun⟩ := e.run_cases s howns
      · exact .inl ⟨⟨s, rfl, htwice⟩, bind_fault hnone⟩
      refine .inr ⟨?_, hrun.bind ?_⟩
      · rintro ⟨_, hsome, h⟩
        cases hsome
        exact htwice h
      · rintro ⟨out, s'⟩ _ ⟨rfl, hmodel, hlost⟩
        refine .pure ⟨?_, fun hkeeps h x hx => ?_, fun hkeeps h => ?_⟩
        · unfold SessionStore.owned SessionEdit.Outcome.owned
          rw [List.map_append, List.sum_append, List.map_singleton, List.sum_singleton,
            ← Multiset.coe_add, Triple.sum_set SessionCell.owned hi]
          ac_rfl
        · obtain hx | rfl := List.mem_or_eq_of_mem_set hx
          · exact h x hx
          · exact hmodel hkeeps (h s (List.mem_of_getElem? hs))
        · show store.lost ++ out.lost = []
          rw [h, hlost hkeeps, List.append_nil]

end SessionStore

/-- A session without a name is to be made, and there is no memory for the random one. -/
def UnwrittenName (c : SessionCall) (grants : List Bool) : Prop :=
  ∃ first second, c = .new none first second ∧ SessionCell.RefusesName grants

/-- The random name is printed to a null pointer, or an import uninitialises a sound twice. -/
def SessionStore.Fails (store : SessionStore) (c : SessionCall) (grants : List Bool) : Prop :=
  UnwrittenName c grants ∨
    ∃ i e s, c = .edit i e ∧ store.sessions[i]? = some s ∧ e.UninitsTwice s grants

/-- A call fails in these two cases, and else it accounts for what it allocates. -/
theorem call_cases {t : Allocator} {store : SessionStore} (howns : Owns t.heap store.owned)
    (c : SessionCall) :
    (store.Fails c t.grants ∧ store.call c t = none) ∨
      (¬store.Fails c t.grants ∧ Succeeds t (store.call c) (store.Accounts c)) := by
  have hrest : ∀ {c}, ¬store.Fails c t.grants →
      Triple store.owned (store.call c) (store.Accounts c) →
      (store.Fails c t.grants ∧ store.call c t = none) ∨
        (¬store.Fails c t.grants ∧ Succeeds t (store.call c) (store.Accounts c)) :=
    fun hfails hcall => .inr ⟨hfails, hcall.succeeds howns⟩
  cases c with
  | new sessionName first second =>
      have hedit : ∀ i e, SessionCall.new sessionName first second ≠ .edit i e := nofun
      cases sessionName with
      | none =>
          obtain ⟨hrefuses, hnone⟩ | ⟨hgrants, out, t', owned, hrun, ⟨howned, hnew⟩, howns'⟩ :=
            SessionCell.new_random first second howns
          · exact .inl ⟨.inl ⟨first, second, rfl, hrefuses⟩, bind_fault hnone⟩
          · refine .inr ⟨?_, _, t', owned, bind_eq hrun, store.new_accounts howned hnew, howns'⟩
            rintro (⟨_, _, -, hrefuses⟩ | ⟨i, e, _, h, -⟩)
            · exact hgrants hrefuses
            · exact hedit i e h
      | some sessionName =>
          refine .inr ⟨?_, Triple.succeeds
            ((SessionCell.new_owned sessionName first second).bind ?_) howns⟩
          · rintro (⟨_, _, h, -⟩ | ⟨i, e, _, h, -⟩)
            · cases h
            · exact hedit i e h
          · rintro out _ ⟨howned, hnew⟩
            exact .pure (store.new_accounts howned hnew)
  | edit i e =>
      obtain ⟨⟨s, hs, htwice⟩, hnone⟩ | ⟨htwice, hrun⟩ := store.edit_cases i e howns
      · exact .inl ⟨.inr ⟨i, e, s, rfl, hs, htwice⟩, hnone⟩
      · refine .inr ⟨?_, hrun⟩
        rintro (⟨_, _, h, -⟩ | ⟨_, _, s, h, hs, hfails⟩)
        · cases h
        · cases h
          exact htwice ⟨s, hs, hfails⟩
  | names i => exact hrest (by simp [SessionStore.Fails, UnwrittenName]) (store.names_accounts i)
  | freeResult k =>
      exact hrest (by simp [SessionStore.Fails, UnwrittenName]) (store.freeResult_accounts k)
  | freeNames k =>
      exact hrest (by simp [SessionStore.Fails, UnwrittenName]) (store.freeNames_accounts k)
  | free i => exact hrest (by simp [SessionStore.Fails, UnwrittenName]) (store.free_accounts i)

/-! ## Runs -/

/-- The heap, and what the callers hold. -/
structure SessionState where
  heap : Heap Unit
  store : SessionStore

def sessionStart : SessionState :=
  { heap := ⟨[]⟩, store := { sessions := [], results := [], vectors := [], lost := [] } }

/-- A call, with the answers of the allocator, as long as no channel was freed. -/
def SessionStep (s : SessionState) (c : SessionCall × List Bool) (s' : SessionState) : Prop :=
  s.store.lost = [] ∧ ∃ left, s.store.call c.1 ⟨s.heap, c.2⟩ = some (s'.store, ⟨s'.heap, left⟩)

theorem SessionStep.accounts {s s' : SessionState} {c : SessionCall × List Bool}
    (howns : Owns s.heap s.store.owned) (hstep : SessionStep s c s') :
    Owns s'.heap s'.store.owned ∧ s.store.Accounts c.1 s'.store s'.store.owned := by
  obtain ⟨-, left, hcall⟩ := hstep
  obtain ⟨-, hnone⟩ | ⟨-, store', t, owned, hrun, haccounts, howns'⟩ :=
    call_cases (t := ⟨s.heap, c.2⟩) howns c.1
  · cases hcall.symm.trans hnone
  · cases hcall.symm.trans hrun
    obtain rfl := haccounts.owned
    exact ⟨howns', haccounts⟩

theorem owns_of_run {calls : List (SessionCall × List Bool)} {s : SessionState}
    (hrun : Run SessionStep sessionStart calls s) : Owns s.heap s.store.owned :=
  hrun.invariant owns_empty fun _ _ _ howns hstep => (hstep.accounts howns).1

/-- A call that does not fail leads on. -/
theorem exists_step {s : SessionState} (howns : Owns s.heap s.store.owned)
    (hlost : s.store.lost = []) {c : SessionCall × List Bool} (hfails : ¬s.store.Fails c.1 c.2) :
    ∃ s', SessionStep s c s' := by
  obtain ⟨h, -⟩ | ⟨-, store', t, _, hcall, -⟩ := call_cases (t := ⟨s.heap, c.2⟩) howns c.1
  · exact absurd h hfails
  · exact ⟨⟨t.heap, store'⟩, hlost, t.grants, hcall⟩

/-- Calls that are not refused a name and free no channel lead on to some state. -/
theorem run_of_named (calls : List (SessionCall × List Bool))
    (hkeeps : ∀ c ∈ calls, c.1.KeepsChannels)
    (hnamed : ∀ c ∈ calls, ∀ store : SessionStore, ¬store.Fails c.1 c.2) :
    ∃ s, Run SessionStep sessionStart calls s ∧ s.store.lost = [] := by
  induction calls using List.reverseRecOn with
  | nil => exact ⟨sessionStart, .nil, rfl⟩
  | append_singleton calls c ih =>
      obtain ⟨s, hrun, hlost⟩ := ih (fun d hd => hkeeps d (List.mem_append_left _ hd))
        fun d hd => hnamed d (List.mem_append_left _ hd)
      have howns := owns_of_run hrun
      obtain ⟨s', hstep⟩ := exists_step howns hlost (hnamed c (by simp) s.store)
      exact ⟨s', .snoc hrun hstep, (hstep.accounts howns).2.lost (hkeeps c (by simp)) hlost⟩

/-- Whatever the allocator answers, what is allocated is what the sessions and the callers own and
what the freed channels left, each block once. As long as no channel was freed, a call fails only
for a random name that there is no memory for and for an import that uninitialises a sound
twice. -/
theorem sessions_owned {calls : List (SessionCall × List Bool)} {s : SessionState}
    (hrun : Run SessionStep sessionStart calls s) :
    Owns s.heap s.store.owned ∧ (s.store.lost = [] → ∀ c grants,
      s.store.call c ⟨s.heap, grants⟩ = none ↔ s.store.Fails c grants) := by
  have howns := owns_of_run hrun
  refine ⟨howns, fun _ c grants => ?_⟩
  obtain ⟨hfails, hnone⟩ | ⟨hfails, store', t, _, hcall, -⟩ :=
    call_cases (t := ⟨s.heap, grants⟩) howns c
  · exact iff_of_true hnone hfails
  · exact iff_of_false (fun hnone => by cases hcall.symm.trans hnone) hfails

/-- A session is made, an import is refused the memory for its sample, and the session is
freed. -/
theorem sessions_owned_three :
    ∃ s s', Run SessionStep sessionStart [(.new (some (.ofString "a")) 0 0, []),
        (.edit 0 (.importSample (some (.ofString "b"))), [false])] s ∧
      SessionStep s (.free 0, []) s' ∧ Owns s'.heap s'.store.owned ∧ ∀ c grants,
        s.store.call c ⟨s.heap, grants⟩ = none ↔ s.store.Fails c grants := by
  obtain ⟨s, hrun, hlost⟩ := run_of_named [(.new (some (.ofString "a")) 0 0, []),
    (.edit 0 (.importSample (some (.ofString "b"))), [false])]
    (by simp [SessionCall.KeepsChannels, SessionEdit.KeepsChannels])
    (by simp [SessionStore.Fails, UnwrittenName, SessionEdit.UninitsTwice,
      SampleListCell.RefusesName])
  obtain ⟨s', hstep⟩ := exists_step (owns_of_run hrun) hlost (c := (.free 0, []))
    (by simp [SessionStore.Fails, UnwrittenName])
  exact ⟨s, s', hrun, hstep, (sessions_owned (.snoc hrun hstep)).1, (sessions_owned hrun).2 hlost⟩

/-- As long as no sample is renamed, the samples of every session are those of a run of the list
model. -/
theorem sessions_model {calls : List (SessionCall × List Bool)} {s : SessionState}
    (hrun : Run SessionStep sessionStart calls s) (hkeeps : ∀ c ∈ calls, c.1.KeepsNames) :
    ∀ x ∈ s.store.sessions, ∃ ops, SampleListRun ops x.samples := by
  refine (hrun.invariant_trace (P := fun calls s => Owns s.heap s.store.owned ∧
    ((∀ c ∈ calls, c.1.KeepsNames) → s.store.AllModelled))
      ⟨owns_empty, fun _ _ h => nomatch h⟩ ?_).2 hkeeps
  intro calls m c m' hm hstep
  obtain ⟨howns, haccounts⟩ := hstep.accounts hm.1
  refine ⟨howns, fun hkeeps => haccounts.modelled (hkeeps c (by simp)) (hm.2 fun d hd => ?_)⟩
  exact hkeeps d (List.mem_append_left _ hd)

/-- Two samples of one name are imported, and one of them is deleted. -/
theorem sessions_model_four :
    ∃ s, Run SessionStep sessionStart [(.new none 0 0, []),
        (.edit 0 (.importSample (some (.ofString "b"))), []),
        (.edit 0 (.importSample (some (.ofString "c/b"))), []),
        (.edit 0 (.deleteSample (some (.ofString "b"))), [])] s ∧
      ∀ x ∈ s.store.sessions, ∃ ops, SampleListRun ops x.samples := by
  obtain ⟨s, hrun, -⟩ := run_of_named [(.new none 0 0, []),
    (.edit 0 (.importSample (some (.ofString "b"))), []),
    (.edit 0 (.importSample (some (.ofString "c/b"))), []),
    (.edit 0 (.deleteSample (some (.ofString "b"))), [])]
    (by simp [SessionCall.KeepsChannels, SessionEdit.KeepsChannels])
    (by simp [SessionStore.Fails, UnwrittenName, SessionCell.RefusesName,
      SessionEdit.UninitsTwice, SampleListCell.RefusesName, SampleCell.RefusesName])
  refine ⟨s, hrun, sessions_model hrun ?_⟩
  simp [SessionCall.KeepsNames, SessionEdit.KeepsNames]

end Haze
