import Haze.ObjectMemory
import Haze.Result

/-
  Channels and the channel list, as programs that allocate: `ChannelNew`, `ChannelRename`,
  `ChannelFree` and the functions of `ChannelList`.

  A structure of the C code is a cell here: its address, and what its fields hold, with the
  blocks they own. What the sound engine allocates for a sound group is one block. `ChannelFree`
  does not uninitialise the group: the block stays, and the engine still has the channel in its
  list of what is attached. Each function has one lemma, which says what is owned behind it:
  nothing else is lost on the way, whatever is refused.
-/

open Collections

namespace Haze

open Alloc Triple

variable {pre : Multiset Address}

/-! ## Channels -/

/-- `Channel`. -/
structure ChannelCell where
  addr : Address
  chann : Address
  channName : Option TextCell

namespace ChannelCell

def owned (ch : ChannelCell) : Multiset Address :=
  {ch.addr} + {ch.chann} + TextCell.block ch.channName

/-- `ChannelNew`, with the block of `ma_sound_group_init`. It is not an error if there is no memory
for the name. -/
def new : Alloc (Option ChannelCell) := do
  let some ch ← malloc | return none
  let some chann ← malloc
    | do
      release ch
      return none
  let name ← TextCell.strdup (.ofString "Unnamed Channel")
  return some { addr := ch, chann := chann, channName := name }

/-- `ChannelRename`, of a channel that is there. -/
def rename (c : ChannelCell) (newName : Option CString) : Alloc (ResultAudio × ChannelCell) := do
  let some newName := newName | return (resultAudioErr "invalid argument", c)
  let some name ← TextCell.strdup newName | return (resultAudioErr "Erro allocating name", c)
  touch c.addr
  TextCell.free c.channName
  return (resultAudioOk, { c with channName := some name })

/-- `ChannelFree`. The sound group keeps its block. -/
def free (ch : ChannelCell) : Alloc Unit := do
  touch ch.addr
  TextCell.free ch.channName
  release ch.addr

theorem new_owned : Triple pre new fun ch owned => owned = ch.elim 0 ChannelCell.owned + pre := by
  refine Triple.malloc.bind ?_
  rintro (_ | ch) _ rfl
  · exact .pure rfl
  refine Triple.malloc.bind ?_
  rintro (_ | chann) _ rfl
  · refine (Triple.release.of_eq (zero_add _)).bind ?_
    rintro _ _ rfl
    exact .pure (zero_add _).symm
  · refine (TextCell.strdup_owned _).bind ?_
    rintro name _ ⟨rfl, -⟩
    refine .pure ?_
    show TextCell.block name + ({chann} + ({ch} + pre)) =
      {ch} + {chann} + TextCell.block name + pre
    ac_rfl

theorem rename_owned (c : ChannelCell) (newName : Option CString) :
    Triple (c.owned + pre) (c.rename newName) fun out owned => owned = out.2.owned + pre := by
  unfold rename
  cases newName with
  | none => exact .pure rfl
  | some newName =>
      refine (TextCell.strdup_owned _).bind ?_
      rintro (_ | name) _ ⟨rfl, -⟩
      · exact .pure (zero_add _)
      refine (Triple.touch (by simp [owned])).bind ?_
      rintro _ _ rfl
      have hold : TextCell.block (some name) + (c.owned + pre) =
          TextCell.block c.channName +
            ({c.addr} + {c.chann} + TextCell.block (some name) + pre) := by
        unfold owned
        ac_rfl
      refine ((TextCell.free_owned _).of_eq hold).bind ?_
      rintro _ _ rfl
      exact .pure rfl

theorem free_owned (ch : ChannelCell) :
    Triple (ch.owned + pre) ch.free fun _ owned => owned = {ch.chann} + pre := by
  refine (Triple.touch (by simp [owned])).bind ?_
  rintro _ _ rfl
  have hname : ch.owned + pre =
      TextCell.block ch.channName + ({ch.addr} + ({ch.chann} + pre)) := by
    unfold owned
    ac_rfl
  refine ((TextCell.free_owned _).of_eq hname).bind ?_
  rintro _ _ rfl
  exact Triple.release

end ChannelCell

/-! ## The channel list -/

/-- `ChannelList`: the array of the channels, which has as many slots as there are channels or
one more. -/
structure ChannelListCell where
  addr : Address
  array : Address
  channels : List ChannelCell

namespace ChannelListCell

def owned (list : ChannelListCell) : Multiset Address :=
  {list.addr} + {list.array} + (list.channels.map ChannelCell.owned).sum

/-- The blocks of the sound groups. -/
def groups (list : ChannelListCell) : List Address := list.channels.map (·.chann)

/-- `ChannelListNew`, with an engine. Whether the first channel got its name is not asked. -/
def new : Alloc (Option ChannelListCell) := do
  let some clist ← malloc | return none
  let some channels ← malloc
    | do
      release clist
      return none
  let some channel ← ChannelCell.new
    | do
      release channels
      release clist
      return none
  let (_, channel) ← channel.rename (some (.ofString "Master"))
  return some { addr := clist, array := channels, channels := [channel] }

/-- `ChannelListAdd`, to a list that is there and with an engine. It also says which sound group
it leaves without a channel. -/
def add (clist : ChannelListCell) : Alloc ((ResultAudio × List Address) × ChannelListCell) := do
  touch clist.addr
  let index := clist.channels.length
  let some channels ← realloc (some clist.array)
    | return ((resultAudioErr "err alloc", []), clist)
  let clist := { clist with array := channels }
  let some channel ← ChannelCell.new | return ((resultAudioErr "err alloc", []), clist)
  let (renameResult, channel) ← channel.rename (some (.ofString s!"Channel {index + 1}"))
  if renameResult.success = false then
    channel.free
    return (({ success := false, msg := renameResult.msg }, [channel.chann]), clist)
  return ((resultAudioOk, []), { clist with channels := clist.channels ++ [channel] })

def free (list : ChannelListCell) : Alloc Unit := do
  touch list.addr
  list.channels.forM ChannelCell.free
  release list.array
  release list.addr

theorem new_owned :
    Triple pre new fun list owned => owned = list.elim 0 ChannelListCell.owned + pre := by
  refine Triple.malloc.bind ?_
  rintro (_ | clist) _ rfl
  · exact .pure rfl
  refine Triple.malloc.bind ?_
  rintro (_ | channels) _ rfl
  · refine (Triple.release.of_eq (zero_add _)).bind ?_
    rintro _ _ rfl
    exact .pure (zero_add _).symm
  refine ChannelCell.new_owned.bind ?_
  rintro (_ | channel) _ rfl
  · refine (Triple.release.of_eq (zero_add _)).bind ?_
    rintro _ _ rfl
    refine Triple.release.bind ?_
    rintro _ _ rfl
    exact .pure (zero_add _).symm
  · refine (ChannelCell.rename_owned channel _).bind ?_
    rintro ⟨result, channel⟩ _ rfl
    refine .pure ?_
    show channel.owned + ({channels} + ({clist} + pre)) =
      {clist} + {channels} + ([channel].map ChannelCell.owned).sum + pre
    rw [List.map_singleton, List.sum_singleton]
    ac_rfl

theorem add_owned (clist : ChannelListCell) :
    Triple (clist.owned + pre) clist.add fun out owned =>
      owned = out.1.2 + out.2.owned + pre := by
  refine (Triple.touch (by simp [owned])).bind ?_
  rintro _ _ rfl
  have harray : clist.owned + pre = block (some clist.array) +
      ({clist.addr} + (clist.channels.map ChannelCell.owned).sum + pre) := by
    show _ = {clist.array} + _
    unfold owned
    ac_rfl
  refine (Triple.realloc.of_eq harray).bind ?_
  rintro (_ | channels) _ rfl
  · refine .pure ?_
    rw [Multiset.coe_nil, zero_add]
    exact harray.symm
  have hmoved : block (some channels) +
      ({clist.addr} + (clist.channels.map ChannelCell.owned).sum + pre) =
        { clist with array := channels }.owned + pre := by
    show {channels} + _ = _
    unfold owned
    dsimp only
    ac_rfl
  refine (ChannelCell.new_owned.of_eq hmoved).bind ?_
  rintro (_ | channel) _ rfl
  · exact .pure (add_assoc _ _ _).symm
  refine (ChannelCell.rename_owned channel _).bind ?_
  rintro ⟨result, channel⟩ _ rfl
  dsimp only
  split_ifs
  · refine (ChannelCell.free_owned channel).bind ?_
    rintro _ _ rfl
    exact .pure (add_assoc _ _ _).symm
  · refine .pure ?_
    unfold owned
    rw [List.map_append, List.sum_append, List.map_singleton, List.sum_singleton,
      Multiset.coe_nil, zero_add]
    ac_rfl

theorem free_owned (list : ChannelListCell) :
    Triple (list.owned + pre) list.free fun _ owned => owned = list.groups + pre := by
  refine (Triple.touch (by simp [owned])).bind ?_
  rintro _ _ rfl
  have hchannels : list.owned + pre =
      (list.channels.map ChannelCell.owned).sum + ({list.array} + ({list.addr} + pre)) := by
    unfold owned
    ac_rfl
  refine ((Triple.forM_leaves (fun ch _ => ch.free_owned) list.channels).of_eq hchannels).bind ?_
  rintro _ _ rfl
  have hgroups : (list.channels.map fun ch => ({ch.chann} : Multiset Address)).sum =
      list.groups := by
    unfold groups
    induction list.channels with
    | nil => rfl
    | cons ch channels ih =>
        rw [List.map_cons, List.sum_cons, ih, Multiset.singleton_add, Multiset.cons_coe,
          List.map_cons]
  rw [hgroups]
  refine (Triple.release.of_eq (add_left_comm _ _ _)).bind ?_
  rintro _ _ rfl
  exact Triple.release.of_eq (add_left_comm _ _ _)

end ChannelListCell

end Haze
