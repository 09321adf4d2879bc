import Haze.Audio.Samples
import Haze.Session.Session

/-
  Sessions as programs that allocate: `SessionNew`, `SessionSetName` and `SessionFree`.

  `SessionNew` makes a session part by part and releases the parts it has if one of them cannot
  be made (`new_owned`). One request is not checked by the code, the one for the random name of a
  session (`new_random`). `SessionFree` leaves the sound groups of the channels (`free_owned`).
-/

open Collections Msgpack Transition

namespace Haze

open Alloc Triple

variable {pre : Multiset Address}

/-! ## Sessions -/

/-- `Session`. -/
structure SessionCell where
  addr : Address
  sessionName : Option TextCell
  projectPath : Option Address
  sampleList : Option SampleListCell
  channelList : Option ChannelListCell

namespace SessionCell

def owned (s : SessionCell) : Multiset Address :=
  {s.addr} + TextCell.block s.sessionName + block s.projectPath +
    s.sampleList.elim 0 SampleListCell.owned + s.channelList.elim 0 ChannelListCell.owned

/-- The sound groups of the channels, which stay attached when the session is freed. -/
def groups (s : SessionCell) : List Address := s.channelList.elim [] ChannelListCell.groups

/-- The samples of the session. -/
def samples (s : SessionCell) : SampleList := s.sampleList.elim [] SampleListCell.list

/-- `session_name_random`. It prints into the block it asked for, whether it got one or not. -/
def nameRandom (first second : Fin 15) : Alloc TextCell := do
  let some name ← malloc | failure
  return { addr := name, text := sessionNameRandom first second }

/-- `SessionFree`, also of a session that is not complete. -/
def free (s : SessionCell) : Alloc Unit := do
  touch s.addr
  TextCell.free s.sessionName
  Alloc.free s.projectPath
  s.sampleList.toList.forM SampleListCell.free
  s.channelList.toList.forM ChannelListCell.free
  release s.addr

/-- `SessionNew` behind the name. -/
def fill (s : SessionCell) : Alloc (Option SessionCell) := do
  if s.sessionName.isNone then
    s.free
    return none
  else
    let some samples ← SampleListCell.new
      | do
        s.free
        return none
    let s := { s with sampleList := some samples }
    let some channels ← ChannelListCell.new
      | do
        s.free
        return none
    return some { s with channelList := some channels }

/-- `SessionNew`, with an engine. -/
def new (sessionName : Option CString) (first second : Fin 15) : Alloc (Option SessionCell) := do
  let some s ← malloc | return none
  let empty : SessionCell :=
    { addr := s, sessionName := none, projectPath := none, sampleList := none, channelList := none }
  match sessionName with
  | none =>
    let name ← nameRandom first second
    fill { empty with sessionName := some name }
  | some sessionName =>
    let name ← TextCell.strdup sessionName
    fill { empty with sessionName := name }

/-- `SessionSetName`, of a session that is there. -/
def setName (s : SessionCell) (sessionName : Option CString) : Alloc (Bool × SessionCell) := do
  let some sessionName := sessionName | return (false, s)
  let some name ← TextCell.strdup sessionName | return (false, s)
  TextCell.free s.sessionName
  return (true, { s with sessionName := some name })

theorem free_owned (s : SessionCell) :
    Triple (s.owned + pre) s.free fun _ owned => owned = s.groups + pre := by
  have hlist : ∀ {α : Type} (own : α → Multiset Address) (x : Option α),
      x.elim 0 own = (x.toList.map own).sum := by
    rintro α own (_ | x)
    · rfl
    · exact (add_zero _).symm
  have hparts : s.owned + pre = TextCell.block s.sessionName + (block s.projectPath +
      ((s.sampleList.toList.map SampleListCell.owned).sum +
        ((s.channelList.toList.map ChannelListCell.owned).sum + ({s.addr} + pre)))) := by
    rw [← hlist, ← hlist]
    unfold owned
    ac_rfl
  refine (Triple.touch (by simp [owned])).bind ?_
  rintro _ _ rfl
  refine ((TextCell.free_owned _).of_eq hparts).bind ?_
  rintro _ _ rfl
  refine Triple.free.bind ?_
  rintro _ _ rfl
  refine (Triple.forM (fun l _ => l.free_owned) _).bind ?_
  rintro _ _ rfl
  refine (Triple.forM_leaves (fun l _ => l.free_owned) _).bind ?_
  rintro _ _ rfl
  have hgroups : (s.channelList.toList.map fun l => (l.groups : Multiset Address)).sum =
      s.groups := by
    unfold groups
    cases s.channelList with
    | none => rfl
    | some list => exact add_zero _
  rw [hgroups]
  exact Triple.release.of_eq (add_left_comm _ _ _)

/-- A session without its lists is filled, or nothing is left of it. -/
theorem fill_owned {s : SessionCell} (hsamples : s.sampleList = none)
    (hchannels : s.channelList = none) :
    Triple (s.owned + pre) s.fill fun out owned =>
      owned = out.elim 0 SessionCell.owned + pre ∧ ∀ x ∈ out, x.samples = sampleListNew := by
  have hfree : ∀ s : SessionCell, s.channelList = none → Triple (s.owned + pre)
      (do
        s.free
        return (none : Option SessionCell)) fun out owned =>
          owned = out.elim 0 SessionCell.owned + pre ∧ ∀ x ∈ out, x.samples = sampleListNew := by
    intro s hnone
    refine s.free_owned.bind ?_
    rintro _ _ rfl
    refine .pure ⟨?_, by simp⟩
    rw [groups, hnone]
    rfl
  unfold fill
  split_ifs
  · exact hfree s hchannels
  refine SampleListCell.new_owned.bind ?_
  rintro (_ | samples) _ ⟨rfl, hnew⟩
  · exact (hfree s hchannels).of_eq (zero_add _)
  have hwith : (some samples).elim 0 SampleListCell.owned + (s.owned + pre) =
      { s with sampleList := some samples }.owned + pre := by
    unfold owned
    rw [hsamples, hchannels]
    dsimp only [Option.elim_none, Option.elim_some]
    rw [add_zero]
    ac_rfl
  refine (ChannelListCell.new_owned.of_eq hwith).bind ?_
  rintro (_ | channels) _ rfl
  · exact (hfree { s with sampleList := some samples } hchannels).of_eq (zero_add _)
  · refine .pure ⟨?_, fun x hx => ?_⟩
    · unfold owned
      rw [hchannels]
      dsimp only [Option.elim_none, Option.elim_some]
      rw [add_zero]
      ac_rfl
    · obtain rfl := Option.some.inj hx
      exact hnew samples rfl

theorem fill_named (s : Address) (name : Option TextCell) :
    Triple (TextCell.block name + ({s} + pre))
      (fill { addr := s, sessionName := name, projectPath := none, sampleList := none,
              channelList := none }) fun out owned =>
      owned = out.elim 0 SessionCell.owned + pre ∧ ∀ x ∈ out, x.samples = sampleListNew := by
  refine (fill_owned rfl rfl).of_eq ?_
  show _ + ({s} + pre) = {s} + TextCell.block name + 0 + 0 + 0 + pre
  simp only [add_zero]
  ac_rfl

theorem setName_owned (s : SessionCell) (sessionName : Option CString) :
    Triple (s.owned + pre) (s.setName sessionName) fun out owned =>
      owned = out.2.owned + pre ∧ out.2.samples = s.samples := by
  unfold setName
  cases sessionName with
  | none => exact .pure ⟨rfl, rfl⟩
  | some sessionName =>
      refine (TextCell.strdup_owned _).bind ?_
      rintro (_ | name) _ ⟨rfl, -⟩
      · exact .pure ⟨zero_add _, rfl⟩
      have hold : TextCell.block (some name) + (s.owned + pre) = TextCell.block s.sessionName +
          ({ s with sessionName := some name }.owned + pre) := by
        unfold owned
        ac_rfl
      refine ((TextCell.free_owned _).of_eq hold).bind ?_
      rintro _ _ rfl
      exact .pure ⟨rfl, rfl⟩

/-- Whatever is refused, a session that is given a name is made whole or not at all. -/
theorem new_owned (sessionName : CString) (first second : Fin 15) :
    Triple pre (new (some sessionName) first second) fun out owned =>
      owned = out.elim 0 SessionCell.owned + pre ∧ ∀ x ∈ out, x.samples = sampleListNew := by
  refine Triple.malloc.bind ?_
  rintro (_ | s) _ rfl
  · exact .pure ⟨rfl, by simp⟩
  refine (TextCell.strdup_owned _).bind ?_
  rintro name _ ⟨rfl, -⟩
  exact fill_named s name

/-- The allocator grants the session and refuses its name. -/
def RefusesName (grants : List Bool) : Prop :=
  grants.headD true = true ∧ grants.tail.headD true = false

/-- A session without a name is made whole or not at all, or its name is not written. -/
theorem new_random (first second : Fin 15) {s : Allocator} (howns : Owns s.heap pre) :
    (RefusesName s.grants ∧ new none first second s = none) ∨
      (¬RefusesName s.grants ∧ Succeeds s (new none first second) fun out owned =>
        owned = out.elim 0 SessionCell.owned + pre ∧ ∀ x ∈ out, x.samples = sampleListNew) := by
  cases hsession : s.grants.headD true with
  | false =>
      refine .inr ⟨fun h => absurd (h.1.symm.trans hsession) nofun, none, _, pre,
        bind_eq (malloc_refused hsession), ⟨(zero_add _).symm, nofun⟩, howns⟩
  | true =>
      cases hname : s.grants.tail.headD true with
      | false =>
          refine .inl ⟨⟨hsession, hname⟩, (bind_eq (malloc_granted hsession)).trans ?_⟩
          have hname' := malloc_refused (s := ⟨(s.heap.alloc ()).2, s.grants.tail⟩) hname
          exact bind_fault (bind_eq hname')
      | true =>
          refine .inr ⟨fun h => absurd (h.2.symm.trans hname) nofun, ?_⟩
          have hname' := malloc_granted (s := ⟨(s.heap.alloc ()).2, s.grants.tail⟩) hname
          refine Succeeds.behind (malloc_granted hsession) (Succeeds.behind (bind_eq hname') ?_)
          exact (fill_named _ _).succeeds howns.alloc.alloc

end SessionCell

end Haze
