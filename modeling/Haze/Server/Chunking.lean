import Haze.Server.Lifecycle

/-
  A stream of request frames that is cut into reads.

  A read that ends inside a frame is not put aside until the rest comes: the unmarshaller gets
  what is there, and the connection is closed or a request is dispatched before its last bytes
  have arrived (`hazeOnRead_early`). So how the stream is cut makes no difference exactly when
  it is cut between frames (`hazeReads_chunks_iff`). The connection is idle to begin with, as
  a new one is (`idle_hazeConnNew`).
-/

open Msgpack

namespace Haze

variable {p : Platform}

/-! ## Frames in a stream -/

/-- A well-formed frame `[0, msgid, method, params]` whose params are scalars. -/
def ScalarFrame (f : Bytes) : Prop :=
  ∃ msgid method params, RequestFrame msgid method params f ∧ ∀ v ∈ params, v.scalar

/-- The number of frames that are there whole when `n` bytes of them are. -/
def wholeFrames : Nat → List Bytes → Nat
  | _, [] => 0
  | n, f :: frames => if f.length ≤ n then wholeFrames (n - f.length) frames + 1 else 0

theorem scalarFrame_readsAs {f : Bytes} (hf : ScalarFrame f) : ∃ request, ReadsAs request f := by
  obtain ⟨msgid, method, params, hframe, hscalar⟩ := hf
  have hflat : ∀ v ∈ params, v.children = [] := fun v hv => Value.children_of_scalar (hscalar v hv)
  obtain ⟨request, -, hread⟩ := flatFrame_readsAs ⟨method, params, hframe, hflat⟩
  exact ⟨request, hread⟩

theorem wholeFrames_mono {m n : Nat} (hmn : m ≤ n) (frames : List Bytes) :
    wholeFrames m frames ≤ wholeFrames n frames := by
  induction frames generalizing m n with
  | nil => exact le_rfl
  | cons f frames ih =>
      unfold wholeFrames
      split_ifs with hm hn
      · exact Nat.succ_le_succ (ih (by omega))
      · omega
      · exact Nat.zero_le _
      · exact le_rfl

/-- What has come of a stream is its whole frames and the start of the next one. -/
theorem exists_wholeFrames {b : Bytes} {frames : List Bytes} (hb : b <+: frames.flatten) :
    ∃ start, b = (frames.take (wholeFrames b.length frames)).flatten ++ start := by
  induction frames generalizing b with
  | nil => exact ⟨b, rfl⟩
  | cons f frames ih =>
      unfold wholeFrames
      split_ifs with hf
      · rw [List.flatten_cons] at hb
        obtain ⟨rest, rfl⟩ := List.prefix_of_prefix_length_le (List.prefix_append f _) hb hf
        obtain ⟨start, hstart⟩ := ih ((List.prefix_append_right_inj f).mp hb)
        refine ⟨start, ?_⟩
        rw [List.length_append, Nat.add_sub_cancel_left, List.take_succ_cons, List.flatten_cons,
          List.append_assoc, ← hstart]
      · exact ⟨b, rfl⟩

theorem le_wholeFrames {k : Nat} {frames : List Bytes} (hk : k ≤ frames.length) :
    k ≤ wholeFrames (frames.take k).flatten.length frames := by
  induction frames generalizing k with
  | nil => exact hk
  | cons f frames ih =>
      cases k with
      | zero => exact Nat.zero_le _
      | succ k =>
          have hrest := ih (Nat.le_of_succ_le_succ hk)
          rw [List.take_succ_cons, List.flatten_cons, List.length_append]
          unfold wholeFrames
          rw [if_pos (Nat.le_add_right _ _), Nat.add_sub_cancel_left]
          exact Nat.succ_le_succ hrest

/-- The bytes are some number of frames just when they are the frames that are there whole. -/
theorem aligned_iff {b : Bytes} {frames : List Bytes} (hb : b <+: frames.flatten) :
    (∃ k, b = (frames.take k).flatten) ↔
      b = (frames.take (wholeFrames b.length frames)).flatten := by
  constructor
  · intro halign
    obtain ⟨k, hk⟩ := halign
    obtain ⟨start, hstart⟩ := exists_wholeFrames hb
    have hmin : frames.take k = frames.take (min k frames.length) := by
      rw [← List.take_take, List.take_length]
    rw [hmin] at hk
    have hle := le_wholeFrames (Nat.min_le_right k frames.length)
    rw [← hk] at hle
    -- the frames counted are no fewer, so nothing is left behind them
    have hprefix : (frames.take (min k frames.length)).flatten.length ≤
        (frames.take (wholeFrames b.length frames)).flatten.length :=
      ((List.take_prefix_take_left hle).flatten).length_le
    have hlen := congrArg List.length hstart
    rw [List.length_append] at hlen
    rw [← hk] at hprefix
    obtain rfl : start = [] := List.length_eq_zero_iff.mp (by omega)
    rwa [List.append_nil] at hstart
  · exact fun h => ⟨_, h⟩

theorem wholeFrames_le (n : Nat) (frames : List Bytes) : wholeFrames n frames ≤ frames.length := by
  induction frames generalizing n with
  | nil => exact le_rfl
  | cons f frames ih =>
      unfold wholeFrames
      split_ifs
      · exact Nat.succ_le_succ (ih _)
      · exact Nat.zero_le _

theorem wholeFrames_zero {frames : List Bytes} (hne : ∀ f ∈ frames, f ≠ []) :
    wholeFrames 0 frames = 0 := by
  cases frames with
  | nil => rfl
  | cons f frames =>
      have hpos := List.length_pos_iff.mpr (hne f List.mem_cons_self)
      exact if_neg (by omega)

/-- The frames that are there whole when `n` bytes are, with what they are read as. -/
def framesIn (n : Nat) (frames : List (Request × Bytes)) : List (Request × Bytes) :=
  frames.take (wholeFrames n (frames.map Prod.snd))

/-- What one more chunk brings: the frames that are whole with it and were not without it, and
the start of the next one. -/
theorem exists_chunk {b c start : Bytes} {frames : List (Request × Bytes)}
    (hb : b = ((framesIn b.length frames).map Prod.snd).flatten)
    (hc : b ++ c = ((framesIn (b ++ c).length frames).map Prod.snd).flatten ++ start) :
    ∃ next, framesIn (b ++ c).length frames = framesIn b.length frames ++ next ∧
      c = (next.map Prod.snd).flatten ++ start := by
  have hprefix : framesIn b.length frames <+: framesIn (b ++ c).length frames :=
    List.take_prefix_take_left (wholeFrames_mono
      (by rw [List.length_append]; exact Nat.le_add_right _ _) _)
  obtain ⟨next, hnext⟩ := hprefix
  refine ⟨next, hnext.symm, ?_⟩
  rw [← hnext, List.map_append, List.flatten_append, ← hb, List.append_assoc] at hc
  exact List.append_cancel_left hc

/-! ## Reads -/

theorem hazeReads_append (connection : Nat) (ctx : Context p) (conn : HazeConn)
    (reads later : List Read) :
    hazeReads connection ctx conn (reads ++ later) =
      let out := hazeReads connection ctx conn reads
      let rest := hazeReads connection out.1 out.2.1 later
      (rest.1, rest.2.1, out.2.2 ++ rest.2.2) := by
  induction reads generalizing ctx conn with
  | nil => rfl
  | cons read reads ih =>
      by_cases hclosed : conn.closed = true
      · rw [List.cons_append, hazeReads_of_closed connection ctx hclosed,
          hazeReads_of_closed connection ctx hclosed]
        dsimp only
        rw [hazeReads_of_closed connection ctx hclosed]
        rfl
      · have hopen := Bool.eq_false_iff.mpr hclosed
        rw [List.cons_append, hazeReads_cons connection ctx hopen,
          hazeReads_cons connection ctx hopen]
        dsimp only
        rw [ih]
        dsimp only
        rw [List.append_assoc]

/-- One more chunk. -/
theorem hazeReads_snoc (connection : Nat) (ctx : Context p) {conn : HazeConn}
    {chunks : List Bytes} {r : Context p × HazeConn × List Event}
    (hr : hazeReads connection ctx conn (chunks.map .data) = r) (hopen : r.2.1.closed = false)
    (c : Bytes) :
    hazeReads connection ctx conn ((chunks ++ [c]).map .data) =
      let last := hazeOnRead connection r.1 r.2.1 (.data c)
      (last.1, last.2.1, r.2.2 ++ last.2.2) := by
  rw [List.map_append, List.map_singleton, hazeReads_append, hr]
  dsimp only
  rw [hazeReads_cons connection r.1 hopen]
  dsimp only
  rw [hazeReads, List.append_nil]

/-- A read that ends inside a frame dispatches a request more than have come, or closes the
connection. -/
theorem hazeOnRead_early (connection : Nat) (ctx : Context p) {conn : HazeConn}
    (hidle : conn.Idle) {frames : List (Request × Bytes)}
    (hframes : ∀ f ∈ frames, ReadsAs f.1 f.2) {start : Bytes} (hstart : start ≠ []) :
    let out := hazeOnRead connection ctx conn (.data ((frames.map Prod.snd).flatten ++ start))
    frames.length < (dispatched out.2.2).length ∨ out.2.1.closed = true := by
  have hloop := hazeReadLoop_reads connection ctx hframes start
  obtain ⟨-, -, hevents, hclosed⟩ :=
    hazeOnRead_idle connection ctx hidle ((frames.map Prod.snd).flatten ++ start)
  rw [hloop] at hevents
  dsimp only at hevents ⊢
  rw [hclosed, hevents]
  rcases hazeReadLoop_progress connection (dispatchAll connection ctx (frames.map Prod.fst)).1
    hstart with hmore | hclose
  · left
    have hpos := List.length_pos_iff.mpr hmore
    rw [dispatched_append, dispatched_append, dispatched_dispatchAll, List.length_append,
      List.length_append, List.length_map]
    omega
  · right
    rw [List.any_append, List.any_append, hclose, Bool.or_true, Bool.true_or]

/-! ## Cuts -/

/-- Every chunk ends where a frame ends. -/
def CutsBetween (frames chunks : List Bytes) : Prop :=
  ∀ front, front <+: chunks → ∃ k, front.flatten = (frames.take k).flatten

theorem CutsBetween.front {frames chunks front : List Bytes} (h : CutsBetween frames chunks)
    (hfront : front <+: chunks) : CutsBetween frames front :=
  fun _ hf => h _ (hf.trans hfront)

theorem CutsBetween.flatten_prefix {frames chunks : List Bytes} (h : CutsBetween frames chunks) :
    chunks.flatten <+: frames.flatten := by
  obtain ⟨k, hk⟩ := h chunks (List.prefix_refl _)
  rw [hk]
  exact (List.take_prefix k frames).flatten

theorem CutsBetween.whole {frames : List (Request × Bytes)} {chunks : List Bytes}
    (h : CutsBetween (frames.map Prod.snd) chunks) :
    chunks.flatten = ((framesIn chunks.flatten.length frames).map Prod.snd).flatten := by
  rw [framesIn, List.map_take]
  exact (aligned_iff h.flatten_prefix).mp (h chunks (List.prefix_refl _))

/-- Chunks that end where frames end are served frame by frame. -/
theorem hazeReads_aligned (connection : Nat) (ctx : Context p) {conn : HazeConn}
    (hidle : conn.Idle) {frames : List (Request × Bytes)} (hframes : ∀ f ∈ frames, ReadsAs f.1 f.2)
    {chunks : List Bytes} (hcuts : CutsBetween (frames.map Prod.snd) chunks) :
    let out := hazeReads connection ctx conn (chunks.map .data)
    out.2.1.Idle ∧ (out.1, out.2.2) =
      dispatchAll connection ctx ((framesIn chunks.flatten.length frames).map Prod.fst) := by
  induction chunks using List.reverseRecOn with
  | nil =>
      have hne : ∀ f ∈ frames.map Prod.snd, f ≠ [] := List.forall_mem_map.mpr fun f hf =>
        (hframes f hf).1
      rw [List.flatten_nil, List.length_nil, framesIn, wholeFrames_zero hne]
      exact ⟨hidle, rfl⟩
  | append_singleton chunks c ih =>
      have hfront := hcuts.front (List.prefix_append chunks [c])
      obtain ⟨hmid, hserved⟩ := ih hfront
      have hnew := hcuts.whole
      rw [List.flatten_append, List.flatten_singleton] at hnew ⊢
      rw [← List.append_nil (List.flatten (List.map _ (framesIn _ frames)))] at hnew
      obtain ⟨next, hin, hc⟩ := exists_chunk hfront.whole hnew
      have hnext : ∀ f ∈ next, ReadsAs f.1 f.2 := fun f hf =>
        hframes f (List.mem_of_mem_take (hin ▸ List.mem_append_right _ hf))
      rw [List.append_nil] at hc
      generalize hr : hazeReads connection ctx conn (chunks.map .data) = r at hmid hserved
      obtain ⟨hlast, hread⟩ := hazeOnRead_whole connection r.1 hmid hnext
      rw [← hc] at hlast hread
      rw [hazeReads_snoc connection ctx hr hmid.2, hin, List.map_append, dispatchAll_append,
        ← hserved]
      dsimp only
      rw [← hread]
      exact ⟨hlast, rfl⟩

/-- After each chunk the connection is open, and no request was dispatched of which a byte is
still to come. -/
def NoneEarly (connection : Nat) (ctx : Context p) (conn : HazeConn) (frames chunks : List Bytes) :
    Prop :=
  ∀ front, front <+: chunks →
    let out := hazeReads connection ctx conn (front.map .data)
    out.2.1.closed = false ∧
      (dispatched out.2.2).length ≤ wholeFrames front.flatten.length frames

theorem length_framesIn (n : Nat) (frames : List (Request × Bytes)) :
    (framesIn n frames).length = wholeFrames n (frames.map Prod.snd) := by
  have hle := wholeFrames_le n (frames.map Prod.snd)
  rw [List.length_map] at hle
  rw [framesIn, List.length_take, Nat.min_eq_left hle]

theorem noneEarly_of_cutsBetween (connection : Nat) (ctx : Context p) {conn : HazeConn}
    (hidle : conn.Idle) {frames : List (Request × Bytes)} (hframes : ∀ f ∈ frames, ReadsAs f.1 f.2)
    {chunks : List Bytes} (hcuts : CutsBetween (frames.map Prod.snd) chunks) :
    NoneEarly connection ctx conn (frames.map Prod.snd) chunks := by
  intro front hfront
  obtain ⟨hout, hserved⟩ := hazeReads_aligned connection ctx hidle hframes (hcuts.front hfront)
  refine ⟨hout.2, ?_⟩
  rw [← length_framesIn, congrArg Prod.snd hserved, dispatched_dispatchAll, List.length_map]

/-- A chunk that ends inside a frame, after chunks that did not, closes the connection or
dispatches a request too many. -/
theorem hazeReads_early (connection : Nat) (ctx : Context p) {conn : HazeConn}
    (hidle : conn.Idle) {frames : List (Request × Bytes)} (hframes : ∀ f ∈ frames, ReadsAs f.1 f.2)
    {chunks : List Bytes} (hcuts : CutsBetween (frames.map Prod.snd) chunks) {c start : Bytes}
    (hc : chunks.flatten ++ c =
      ((framesIn (chunks.flatten ++ c).length frames).map Prod.snd).flatten ++ start)
    (hstart : start ≠ []) :
    let out := hazeReads connection ctx conn ((chunks ++ [c]).map .data)
    (framesIn (chunks.flatten ++ c).length frames).length < (dispatched out.2.2).length ∨
      out.2.1.closed = true := by
  obtain ⟨hmid, hserved⟩ := hazeReads_aligned connection ctx hidle hframes hcuts
  obtain ⟨next, hin, rfl⟩ := exists_chunk hcuts.whole hc
  have hnext : ∀ f ∈ next, ReadsAs f.1 f.2 := fun f hf =>
    hframes f (List.mem_of_mem_take (hin ▸ List.mem_append_right _ hf))
  generalize hr : hazeReads connection ctx conn (chunks.map .data) = r at hmid hserved
  rw [hazeReads_snoc connection ctx hr hmid.2]
  dsimp only
  rcases hazeOnRead_early connection r.1 hmid hnext hstart with hmore | hclosed
  · left
    have hold : (dispatched r.2.2).length = (framesIn chunks.flatten.length frames).length := by
      rw [congrArg Prod.snd hserved, dispatched_dispatchAll, List.length_map]
    rw [hin, dispatched_append, List.length_append, List.length_append, hold]
    exact Nat.add_lt_add_left hmore _
  · exact .inr hclosed

/-- So chunks of which none shows too early end where frames end. -/
theorem cutsBetween_of_noneEarly (connection : Nat) (ctx : Context p) {conn : HazeConn}
    (hidle : conn.Idle) {frames : List (Request × Bytes)} (hframes : ∀ f ∈ frames, ReadsAs f.1 f.2)
    {chunks : List Bytes} (hstream : chunks.flatten <+: (frames.map Prod.snd).flatten)
    (hearly : NoneEarly connection ctx conn (frames.map Prod.snd) chunks) :
    CutsBetween (frames.map Prod.snd) chunks := by
  induction chunks using List.reverseRecOn with
  | nil =>
      intro front hfront
      rw [List.prefix_nil.mp hfront]
      exact ⟨0, rfl⟩
  | append_singleton chunks c ih =>
      have hfirst : chunks <+: chunks ++ [c] := List.prefix_append _ _
      have hcuts := ih (hfirst.flatten.trans hstream) fun front hfront =>
        hearly front (hfront.trans hfirst)
      obtain ⟨hopen, hcount⟩ := hearly _ (List.prefix_refl _)
      obtain ⟨start, hstart⟩ := exists_wholeFrames hstream
      rw [List.flatten_append, List.flatten_singleton] at hstart hcount
      rw [← List.map_take] at hstart
      have hnone : start = [] := by
        by_contra hne
        rcases hazeReads_early connection ctx hidle hframes hcuts hstart hne with hmore | hclosed
        · rw [length_framesIn] at hmore
          exact absurd hmore (Nat.not_lt.mpr hcount)
        · exact absurd (hclosed.symm.trans hopen) Bool.noConfusion
      rw [hnone, List.append_nil, List.map_take] at hstart
      intro front hfront
      rcases List.prefix_concat_iff.mp hfront with rfl | hbefore
      · rw [List.flatten_append, List.flatten_singleton]
        exact ⟨_, hstart⟩
      · exact hcuts front hbefore

/-! ## How a stream is cut -/

/-- The chunks are served as one read of their bytes is, and none of them too early. -/
structure ChunkingIndependent (connection : Nat) (ctx : Context p) (conn : HazeConn)
    (frames chunks : List Bytes) : Prop where
  dispatched_eq : dispatched (hazeReads connection ctx conn (chunks.map .data)).2.2 =
    dispatched (hazeReads connection ctx conn [.data frames.flatten]).2.2
  closed_eq : (hazeReads connection ctx conn (chunks.map .data)).2.1.closed =
    (hazeReads connection ctx conn [.data frames.flatten]).2.1.closed
  bufferLen_eq : (hazeReads connection ctx conn (chunks.map .data)).2.1.buffer.length =
    (hazeReads connection ctx conn [.data frames.flatten]).2.1.buffer.length
  none_early : NoneEarly connection ctx conn frames chunks

theorem cutsBetween_flatten (frames : List Bytes) : CutsBetween frames [frames.flatten] := by
  intro front hfront
  rw [← List.nil_append [_], List.prefix_concat_iff] at hfront
  rcases hfront with rfl | hnil
  · refine ⟨frames.length, ?_⟩
    rw [List.nil_append, List.flatten_singleton, List.take_length]
  · rw [List.prefix_nil.mp hnil]
    exact ⟨0, rfl⟩

theorem chunkingIndependent_of_cutsBetween (connection : Nat) (ctx : Context p) {conn : HazeConn}
    (hidle : conn.Idle) {frames : List (Request × Bytes)} (hframes : ∀ f ∈ frames, ReadsAs f.1 f.2)
    {chunks : List Bytes} (hstream : chunks.flatten = (frames.map Prod.snd).flatten)
    (hcuts : CutsBetween (frames.map Prod.snd) chunks) :
    ChunkingIndependent connection ctx conn (frames.map Prod.snd) chunks := by
  obtain ⟨⟨hbuffer, hopen⟩, hserved⟩ := hazeReads_aligned connection ctx hidle hframes hcuts
  obtain ⟨⟨hbuffer', hopen'⟩, hserved'⟩ := hazeReads_aligned connection ctx hidle hframes
    (cutsBetween_flatten (frames.map Prod.snd))
  rw [hstream] at hserved
  rw [List.flatten_singleton, ← hserved] at hserved'
  exact {
    dispatched_eq := congrArg (fun out => dispatched out.2) hserved'.symm
    closed_eq := hopen.trans hopen'.symm
    bufferLen_eq := congrArg List.length (hbuffer.trans hbuffer'.symm)
    none_early := noneEarly_of_cutsBetween connection ctx hidle hframes hcuts }

/-- How a stream of frames is cut into reads makes no difference exactly if every read ends
where a frame ends. -/
theorem hazeReads_chunks_iff (connection : Nat) (ctx : Context p) {conn : HazeConn}
    (hidle : conn.Idle) {frames chunks : List Bytes} (hframes : ∀ f ∈ frames, ScalarFrame f)
    (hstream : chunks.flatten = frames.flatten) :
    ChunkingIndependent connection ctx conn frames chunks ↔ CutsBetween frames chunks := by
  have hreads : ∀ f ∈ frames, ∃ r : Request × Bytes, r.2 = f ∧ ReadsAs r.1 r.2 := by
    intro f hf
    obtain ⟨request, hread⟩ := scalarFrame_readsAs (hframes f hf)
    exact ⟨(request, f), rfl, hread⟩
  obtain ⟨read, rfl, hread⟩ := exists_readsAs _ hreads
  constructor
  · intro h
    exact cutsBetween_of_noneEarly connection ctx hidle hread (hstream ▸ List.prefix_refl _)
      h.none_early
  · intro hcuts
    exact chunkingIndependent_of_cutsBetween connection ctx hidle hread hstream hcuts

theorem scalarFrame_five : ScalarFrame [0x94, 0x00, 0x01, 0xa1, 0x6d, 0x91, 0x05] :=
  ⟨1, [0x6d], [.uint 5], @requestFrame_encode 1 [0x6d] [.uint 5] (by decide) (by decide) (by simp),
    by simp [Value.scalar]⟩

theorem hazeReads_chunks_whole :
    ChunkingIndependent 0 stillContext hazeConnNew
      [[0x94, 0x00, 0x01, 0xa1, 0x6d, 0x91, 0x05], [0x94, 0x00, 0x01, 0xa1, 0x6d, 0x91, 0x05]]
      [[0x94, 0x00, 0x01, 0xa1, 0x6d, 0x91, 0x05], [0x94, 0x00, 0x01, 0xa1, 0x6d, 0x91, 0x05]] :=
  (hazeReads_chunks_iff 0 stillContext idle_hazeConnNew (by simp [scalarFrame_five]) rfl).mpr
    fun front hfront => ⟨front.length, congrArg List.flatten (List.prefix_iff_eq_take.mp hfront)⟩

/-- The frame `[0, 1, "m", [5]]` is cut before its last byte, and the first read does not wait
for it. -/
theorem hazeReads_cut_frame :
    ¬∀ (p : Platform) (connection : Nat) (ctx : Context p) (conn : HazeConn)
        (frames chunks : List Bytes),
      conn.Idle → (∀ f ∈ frames, ScalarFrame f) → (∀ chunk ∈ chunks, chunk ≠ []) →
        chunks.flatten = frames.flatten →
          ChunkingIndependent connection ctx conn frames chunks := by
  intro hall
  have hcut := hall stillPlatform 0 stillContext hazeConnNew
    [[0x94, 0x00, 0x01, 0xa1, 0x6d, 0x91, 0x05]] [[0x94, 0x00, 0x01, 0xa1, 0x6d, 0x91], [0x05]]
    idle_hazeConnNew (by simp [scalarFrame_five]) (by simp) rfl
  obtain ⟨hopen, hcount⟩ := hcut.none_early [[0x94, 0x00, 0x01, 0xa1, 0x6d, 0x91]] ⟨[[0x05]], rfl⟩
  rw [List.map_singleton, hazeReads_cons 0 stillContext rfl] at hopen hcount
  dsimp only at hopen hcount
  rw [hazeReads, List.append_nil] at hcount
  have hnone : wholeFrames 6 [[0x94, 0x00, 0x01, 0xa1, 0x6d, 0x91, 0x05]] = 0 := by decide
  rcases hazeOnRead_progress 0 stillContext hazeConnNew
    (List.cons_ne_nil 0x94 [0x00, 0x01, 0xa1, 0x6d, 0x91]) with hearly | hclosed
  · exact hearly (List.length_eq_zero_iff.mp (Nat.le_zero.mp (hcount.trans hnone.le)))
  · exact absurd (hclosed.symm.trans hopen) Bool.noConfusion

end Haze
