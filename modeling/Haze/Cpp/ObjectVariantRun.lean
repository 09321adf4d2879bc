import Haze.Cpp.ObjectMethods
import Haze.Transition.Run

/-
  Programs over the objects of the C++ client: every constructor and factory, copies, and the
  methods of arrays and maps, on any object at any depth and with any others as arguments.

  A program keeps all of its objects `Sound` exactly as long as every call keeps them
  (`objects_sound_iff`). `Object(ObjectType)` does not for a type that has a payload, nor does
  an assignment from around the object that is assigned to; what else goes wrong is a call that
  loses an argument before it has read it, which the language does not define.
-/

open Msgpack Transition

namespace Haze.Cpp

open ObjectFields Objects

/-! ## Calls -/

/-- The constructors and factories that take no objects. -/
inductive Construction where
  | new
  | ofType (type : ObjectType)
  | ofBool (v : Bool)
  | ofInt (v : Int64)
  | ofUInt (v : UInt64)
  | ofFloat (bits : UInt32)
  | ofDouble (bits : UInt64)
  | ofCharPtr (str : Option CString)
  | ofString (s : Bytes)
  | ofBinary (b : BinaryBuffer)
  | createNil
  | createBool (v : Bool)
  | createInt (v : Int64)
  | createUInt (v : UInt64)
  | createFloat (bits : UInt32)
  | createDouble (bits : UInt64)
  | createStr (s : Bytes)

def Construction.object : Construction → ObjectFields
  | .new => ObjectFields.new
  | .ofType type => ObjectFields.ofType type
  | .ofBool v => ObjectFields.ofBool v
  | .ofInt v => ObjectFields.ofInt v
  | .ofUInt v => ObjectFields.ofUInt v
  | .ofFloat bits => ObjectFields.ofFloat bits
  | .ofDouble bits => ObjectFields.ofDouble bits
  | .ofCharPtr str => ObjectFields.ofCharPtr str
  | .ofString s => ObjectFields.ofString s
  | .ofBinary b => ObjectFields.ofBinary b
  | .createNil => ObjectFields.createNil
  | .createBool v => ObjectFields.createBool v
  | .createInt v => ObjectFields.createInt v
  | .createUInt v => ObjectFields.createUInt v
  | .createFloat bits => ObjectFields.createFloat bits
  | .createDouble bits => ObjectFields.createDouble bits
  | .createStr s => ObjectFields.createStr s

/-- The calls of a program. A moved string leaves `left` behind. -/
inductive ObjectCall where
  | construct (c : Construction)
  | ofArray (arr : List Place)
  | ofMap (map : List (Place × Place))
  | copy (src : Place)
  | move (src : Place) (left : Bytes)
  | assign (this src : Place)
  | arrayAppend (this obj : Place)
  | arrayGet (this : Place) (index : Nat)
  | arrayRemove (this : Place) (index : Nat)
  | mapSet (this key value : Place)
  | mapGet (this key : Place)
  | mapRemove (answers : Nat → Bool) (this key : Place)

inductive ObjectResult where
  | made
  | assigned
  | flag (ok : Bool)
  | pointer (p : Option Place)

variable (s : Objects)

/-- A new object comes behind the ones there are. -/
def addObject (x : ObjectFields) : ObjectResult × Objects := (.made, s ++ [x])

/-- What a call does. -/
def ObjectCall.onObjects : ObjectCall → Except Stop (ObjectResult × Objects)
  | .construct c => return addObject s c.object
  | .ofArray arr => do
    let arr ← given .absent (arr.mapM s.read)
    return addObject s (.ofArray arr)
  | .ofMap map => do
    let map ← given .absent (map.mapM fun entry => do
      return (← s.read entry.1, ← s.read entry.2))
    return addObject s (.ofMap map)
  | .copy src => do
    let x ← given .absent (s.read src)
    return addObject s x
  | .move src left => do
    let x ← s.receiver src
    return addObject (s.put src (x.movedFrom left)) x
  | .assign this src => do
    let s ← s.assign this src
    return (.assigned, s)
  | .arrayAppend this obj => do
    let (ok, s) ← s.arrayAppend this obj
    return (.flag ok, s)
  | .arrayGet this index => do
    let p ← s.arrayGet this index
    return (.pointer p, s)
  | .arrayRemove this index => do
    let (ok, s) ← s.arrayRemove this index
    return (.flag ok, s)
  | .mapSet this key value => do
    let (ok, s) ← s.mapSet this key value
    return (.flag ok, s)
  | .mapGet this key => do
    let p ← s.mapGet this key
    return (.pointer p, s)
  | .mapRemove answers this key => do
    let (ok, s) ← s.mapRemove answers this key
    return (.flag ok, s)

/-- A call returns, or the program has no meaning any more. -/
inductive ObjectStep : Option Objects → ObjectCall × Option ObjectResult → Option Objects → Prop
  | returns {s s' : Objects} {call : ObjectCall} {r : ObjectResult} :
      call.onObjects s = .ok (r, s') → ObjectStep (some s) (call, some r) (some s')
  | undefined {s : Objects} {call : ObjectCall} :
      call.onObjects s = .error .undefined → ObjectStep (some s) (call, none) none

/-! ## What holds of the objects -/

/-- Every object holds what its type names, at every depth, so comparing and writing never throw,
and an object can be appended to and set in with arguments that are there to be read. -/
structure Sound : Prop where
  consistent : AllConsistent s
  equal : ∀ p q a b, s.read p = some a → s.read q = some b → (a.equal b).isSome
  marshal : ∀ p o, s.read p = some o → ∀ w, (marshalMPack w o).isSome
  append : ∀ this obj o x, this.Mutable → s.read this = some o → s.read obj = some x →
    Spared s this obj .array →
      ∃ s', (ObjectCall.arrayAppend this obj).onObjects s = .ok (.flag true, s')
  set : ∀ this key value o x y, this.Mutable → s.read this = some o → s.read key = some x →
    s.read value = some y → Settable s this key value →
      ∃ s', (ObjectCall.mapSet this key value).onObjects s = .ok (.flag true, s')

/-- The type is one without a payload, where the constructor is the one from a type. -/
def Construction.Keeps : Construction → Prop
  | .ofType type => type = .und ∨ type = .nil
  | _ => True

/-- No type without its payload, no assignment from around an object, and no argument that is
lost before it is read. -/
def ObjectCall.Keeps : ObjectCall → Prop
  | .construct c => c.Keeps
  | .assign this src => Assignable s this src
  | .arrayAppend this obj => Spared s this obj .array
  | .mapSet this key value => Settable s this key value
  | .mapRemove _ this key => InReach s this key
  | _ => True

variable {s : Objects}

theorem Construction.consistent_iff (c : Construction) : c.object.Consistent ↔ c.Keeps := by
  cases c with
  | ofType type => exact consistent_ofType_iff
  | _ => exact iff_of_true (by constructor) trivial

theorem addObject_consistent_iff (hs : AllConsistent s) {x : ObjectFields} :
    EndsWell (.ok (addObject s x)) ↔ x.Consistent := by
  constructor
  · intro ⟨_, s', heq, hs'⟩
    cases heq
    exact (List.forall_mem_append.mp hs').2 x (List.mem_singleton_self x)
  · intro hx
    exact ⟨.made, s ++ [x], rfl,
      List.forall_mem_append.mpr ⟨hs, List.forall_mem_singleton.mpr hx⟩⟩

theorem mem_of_mapM {α β : Type} {f : β → Option α} {xs : List β} {ys : List α}
    (h : xs.mapM f = some ys) : ∀ y ∈ ys, ∃ x ∈ xs, f x = some y := by
  induction xs generalizing ys with
  | nil =>
      cases h
      exact List.forall_mem_nil _
  | cons x xs ih =>
      rw [List.mapM_cons] at h
      obtain ⟨y, hy, h⟩ := Option.bind_eq_some_iff.mp h
      obtain ⟨ys, hys, h⟩ := Option.bind_eq_some_iff.mp h
      cases h
      refine List.forall_mem_cons.mpr ⟨⟨x, List.mem_cons_self, hy⟩, fun y' hy' => ?_⟩
      obtain ⟨x', hx', hy'⟩ := ih hys y' hy'
      exact ⟨x', List.mem_cons_of_mem x hx', hy'⟩

theorem ObjectFields.Consistent.movedFrom {o : ObjectFields} (h : o.Consistent) (left : Bytes) :
    (o.movedFrom left).Consistent := by
  cases h with
  | array => exact .array (List.forall_mem_nil _)
  | map => exact .map (List.forall_mem_nil _) (List.forall_mem_nil _)
  | _ => constructor

/-! ## Steps -/

theorem endsWell_bind_iff {α β : Type} {result : Except Stop α} {f : α → β} {g : α → Objects} :
    EndsWell (result >>= fun x => .ok (f x, g x)) ↔
      ∃ x, result = .ok x ∧ AllConsistent (g x) := by
  cases result with
  | error stop =>
      exact iff_of_false (by rintro ⟨_, _, h, _⟩; cases h) (by rintro ⟨_, h, _⟩; cases h)
  | ok x =>
      constructor
      · rintro ⟨_, s', heq, hs'⟩
        cases heq
        exact ⟨x, rfl, hs'⟩
      · rintro ⟨_, heq, hs'⟩
        cases heq
        exact ⟨f x, g x, rfl, hs'⟩

theorem endsWell_flag_iff {result : Except Stop (Bool × Objects)} :
    EndsWell (do let (ok, s) ← result; return (ObjectResult.flag ok, s)) ↔
      ∃ ok s', result = .ok (ok, s') ∧ AllConsistent s' :=
  endsWell_bind_iff.trans Prod.exists

theorem endsWell_assigned_iff {result : Except Stop Objects} :
    EndsWell (do let s ← result; return (ObjectResult.assigned, s)) ↔
      ∃ s', result = .ok s' ∧ AllConsistent s' :=
  endsWell_bind_iff

theorem endsWell_pointer_iff (hs : AllConsistent s) {result : Except Stop (Option Place)} :
    EndsWell (do let p ← result; return (ObjectResult.pointer p, s)) ↔ ∃ p, result = .ok p :=
  endsWell_bind_iff.trans (exists_congr fun _ => and_iff_left hs)

theorem ne_absent_of_bind {α β : Type} {result : Except Stop α} {f : α → Except Stop β}
    (h : result >>= f ≠ .error .absent) : result ≠ .error .absent := by
  rintro rfl
  exact h rfl

/-- A call that finds what it names has read an argument. -/
theorem read_of_given {β : Type} {p : Place} {f : ObjectFields → Except Stop β}
    (h : given .absent (s.read p) >>= f ≠ .error .absent) :
    ∃ x, s.read p = some x ∧ f x ≠ .error .absent := by
  cases hp : s.read p with
  | none =>
      rw [hp] at h
      exact absurd rfl h
  | some x =>
      rw [hp] at h
      exact ⟨x, rfl, h⟩

/-- And it may change the object that it is called on. -/
theorem read_of_receiver {β : Type} {p : Place} {f : ObjectFields → Except Stop β}
    (h : s.receiver p >>= f ≠ .error .absent) :
    ∃ x, p.Mutable ∧ s.read p = some x ∧ f x ≠ .error .absent := by
  by_cases hp : p.Mutable
  · unfold receiver at h
    rw [if_pos hp] at h
    obtain ⟨x, hx, h⟩ := read_of_given h
    exact ⟨x, hp, hx, h⟩
  · unfold receiver at h
    rw [if_neg hp] at h
    exact absurd rfl h

/-- A call on consistent objects ends well exactly when it keeps them. -/
theorem onObjects_iff (hs : AllConsistent s) {call : ObjectCall}
    (hcall : call.onObjects s ≠ .error .absent) :
    EndsWell (call.onObjects s) ↔ call.Keeps s := by
  cases call with
  | construct c => exact (addObject_consistent_iff hs).trans c.consistent_iff
  | ofArray arr =>
      cases hmap : arr.mapM s.read with
      | none => exact absurd (by rw [ObjectCall.onObjects, hmap]; rfl) hcall
      | some xs =>
          refine iff_of_true ?_ trivial
          rw [ObjectCall.onObjects, hmap]
          refine (addObject_consistent_iff hs).mpr (.array fun x hx => ?_)
          obtain ⟨p, -, hp⟩ := mem_of_mapM hmap x hx
          exact read_consistent hs hp
  | ofMap map =>
      cases hmap : map.mapM fun entry => do return (← s.read entry.1, ← s.read entry.2) with
      | none => exact absurd (by rw [ObjectCall.onObjects, hmap]; rfl) hcall
      | some entries =>
          have hboth : ∀ entry ∈ entries, entry.1.Consistent ∧ entry.2.Consistent := by
            intro entry hentry
            obtain ⟨places, -, h⟩ := mem_of_mapM hmap entry hentry
            obtain ⟨key, hkey, h⟩ := Option.bind_eq_some_iff.mp h
            obtain ⟨value, hvalue, h⟩ := Option.bind_eq_some_iff.mp h
            cases h
            exact ⟨read_consistent hs hkey, read_consistent hs hvalue⟩
          refine iff_of_true ?_ trivial
          rw [ObjectCall.onObjects, hmap]
          refine (addObject_consistent_iff hs).mpr (.map ?_ ?_)
          · exact fun entry hentry => (hboth entry hentry).1
          · exact fun entry hentry => (hboth entry hentry).2
  | copy src =>
      obtain ⟨x, hx, -⟩ := read_of_given hcall
      refine iff_of_true ?_ trivial
      rw [ObjectCall.onObjects, hx]
      exact (addObject_consistent_iff hs).mpr (read_consistent hs hx)
  | move src left =>
      obtain ⟨x, hsrc, hx, -⟩ := read_of_receiver hcall
      refine iff_of_true ?_ trivial
      rw [ObjectCall.onObjects, receiver_eq hsrc hx]
      have hgood := read_consistent hs hx
      exact (addObject_consistent_iff (put_consistent hs (hgood.movedFrom left))).mpr hgood
  | assign this src =>
      obtain ⟨old, hthis, hold, hrest⟩ := read_of_receiver (ne_absent_of_bind hcall)
      obtain ⟨new, hnew, -⟩ := read_of_given hrest
      exact endsWell_assigned_iff.trans (assign_iff hs hthis hold hnew)
  | arrayAppend this obj =>
      obtain ⟨o, hthis, ho, hrest⟩ := read_of_receiver (ne_absent_of_bind hcall)
      obtain ⟨x, hx, -⟩ := read_of_given hrest
      refine endsWell_flag_iff.trans ⟨fun ⟨ok, s', heq, _⟩ => ?_, fun h => ?_⟩
      · by_contra h
        cases heq.symm.trans (arrayAppend_of_not_spared hs hthis ho hx h)
      · exact ⟨true, arrayAppend_of_spared hs hthis ho hx h⟩
  | arrayGet this index =>
      obtain ⟨o, ho, -⟩ := read_of_given (ne_absent_of_bind hcall)
      exact iff_of_true ((endsWell_pointer_iff hs).mpr (arrayGet_total ho index)) trivial
  | arrayRemove this index =>
      obtain ⟨o, hthis, ho, -⟩ := read_of_receiver (ne_absent_of_bind hcall)
      have hremove := arrayRemove_consistent hs hthis ho index
      exact iff_of_true (endsWell_flag_iff.mpr hremove) trivial
  | mapSet this key value =>
      obtain ⟨o, hthis, ho, hrest⟩ := read_of_receiver (ne_absent_of_bind hcall)
      obtain ⟨k, hk, hrest⟩ := read_of_given hrest
      obtain ⟨v, hv, -⟩ := read_of_given hrest
      refine endsWell_flag_iff.trans ?_
      simp only [mapSet_iff hs hthis ho hk hv]
      exact ⟨fun ⟨ok, _, h⟩ => h, fun h => ⟨true, rfl, h⟩⟩
  | mapGet this key =>
      obtain ⟨o, ho, hrest⟩ := read_of_given (ne_absent_of_bind hcall)
      obtain ⟨k, hk, -⟩ := read_of_given hrest
      exact iff_of_true ((endsWell_pointer_iff hs).mpr (mapGet_total hs ho hk)) trivial
  | mapRemove answers this key =>
      obtain ⟨o, hthis, ho, hrest⟩ := read_of_receiver (ne_absent_of_bind hcall)
      obtain ⟨k, hk, -⟩ := read_of_given hrest
      exact endsWell_flag_iff.trans (mapRemove_iff hs hthis ho hk)

/-- Objects are sound as soon as they are consistent. -/
theorem sound_iff : Sound s ↔ AllConsistent s := by
  refine ⟨Sound.consistent, fun hs => ⟨hs, ?_, ?_, ?_, ?_⟩⟩
  · intro p q a b ha hb
    exact (read_consistent hs ha).equal (read_consistent hs hb)
  · intro p o ho w
    obtain ⟨x, rfl⟩ := consistent_iff.mp (read_consistent hs ho)
    rw [marshalMPack_fields]
    rfl
  · intro this obj o x hthis ho hx hspared
    obtain ⟨s', happend, -⟩ := arrayAppend_of_spared hs hthis ho hx hspared
    exact ⟨s', by rw [ObjectCall.onObjects, happend]; rfl⟩
  · intro this key value o x y hthis ho hx hy hsettable
    obtain ⟨s', hset, -⟩ := (mapSet_iff hs hthis ho hx hy).mpr ⟨rfl, hsettable⟩
    exact ⟨s', by rw [ObjectCall.onObjects, hset]; rfl⟩

/-! ## Programs -/

/-- A program has sound objects all along exactly when it makes no object from a type with a
payload, assigns none from around itself, and passes no argument that is lost before it is read. -/
theorem objects_sound_iff {calls : List (ObjectCall × Option ObjectResult)} :
    (∀ front m, front <+: calls → Run ObjectStep (some []) front m → ∃ s, m = some s ∧ Sound s) ↔
      ∀ front a m m', front ++ [a] <+: calls → Run ObjectStep (some []) front m →
        ObjectStep m a m' → ∀ s ∈ m, a.1.Keeps s := by
  refine run_always_iff ⟨[], rfl, sound_iff.mpr (List.forall_mem_nil _)⟩ ?_
  rintro _ a m' ⟨s, rfl, hsound⟩ hstep
  have hs := sound_iff.mp hsound
  have hkeeps : (∀ s' ∈ some s, a.1.Keeps s') ↔ a.1.Keeps s :=
    ⟨fun h => h s rfl, fun h s' hs' => Option.some.inj hs' ▸ h⟩
  rw [hkeeps]
  cases hstep with
  | @returns _ s' call r hcall =>
      rw [← onObjects_iff hs (by rw [hcall]; nofun), hcall]
      constructor
      · intro ⟨s'', heq, hsound'⟩
        cases heq
        exact ⟨r, s', rfl, sound_iff.mp hsound'⟩
      · intro ⟨_, s'', heq, hs'⟩
        cases heq
        exact ⟨s', rfl, sound_iff.mpr hs'⟩
  | @undefined _ call hcall =>
      rw [← onObjects_iff hs (by rw [hcall]; nofun), hcall]
      constructor
      · intro ⟨_, heq, _⟩
        cases heq
      · intro ⟨_, _, heq, _⟩
        cases heq

/-- `x.MapGet(1)->MapSet(2, x)` for the map `1 ↦ (2 ↦ 5)`: the 5 has the type of a map now. -/
example :
    (ObjectCall.mapSet ⟨0, [.value 0]⟩ ⟨1, []⟩ ⟨0, []⟩).onObjects
        [.ofMap [(.ofInt 1, .ofMap [(.ofInt 2, .ofInt 5)])], .ofInt 2] =
      .ok (.flag true, [.ofMap [(.ofInt 1, .ofMap [(.ofInt 2,
        .ofMap [(.ofInt 1, .ofMap [(.ofInt 2, ⟨.map, .int64 5⟩)])])])], .ofInt 2]) := rfl

/-- An object that is made an array by its type can not be appended to, nor compared with
itself. -/
theorem objects_ofType_array :
    Run ObjectStep (some [])
        [(.construct (.ofType .array), some .made), (.construct .new, some .made),
          (.arrayAppend ⟨0, []⟩ ⟨1, []⟩, some (.flag false))]
        (some [ObjectFields.ofType .array, ObjectFields.new]) ∧
      (ObjectFields.ofType .array).equal (ObjectFields.ofType .array) = none ∧
      ¬Sound [ObjectFields.ofType .array, ObjectFields.new] := by
  refine ⟨.cons (.returns rfl) (.cons (.returns rfl) (.cons (.returns rfl) .nil)), rfl,
    fun hsound => ?_⟩
  have hgood := hsound.consistent (ObjectFields.ofType .array) List.mem_cons_self
  obtain h | h := consistent_ofType_iff.mp hgood <;> cases h

end Haze.Cpp
