/-
  Deflate with stored blocks only: the compressor.  What it reads it HOLDS until it is flushed or finished, and then
  writes as stored blocks of at most 65535 bytes; a flush ends with an empty block, and the end is marked in the last
  one.
-/
import Oam.Zlib.Inverse
import Oam.Zlib.Stored

namespace Oam.Zlib.Stored

open UInt8 List

/-! ## Blocks -/

/-- One block, of at most 65535 bytes. -/
def block (last : Bool) (data : Bytes) : Bytes :=
  let n := data.length
  [if last then 1 else 0, ofNat n, ofNat (n / 256), ofNat (255 - n % 256),
    ofNat (255 - n / 256)] ++ data

/-- As many blocks as are needed; the first argument bounds their number. -/
def blocksFrom : Nat → Bool → Bytes → Bytes
  | 0, last, data => block last data
  | fuel + 1, last, data =>
    if data.length ≤ 65535 then block last data
    else block false (data.take 65535) ++ blocksFrom fuel last (data.drop 65535)

/-- All the data, in stored blocks. -/
def blocks (last : Bool) (data : Bytes) : Bytes := blocksFrom data.length last data

/-- A sync flush: what is held, and an empty block. -/
def flushed (held : Bytes) : Bytes :=
  if held.isEmpty then block false [] else blocks false held ++ block false []

/-! ## The compressor -/

/-- What is held back, and what waits to be written. -/
structure Core where
  held : Bytes
  queue : Bytes
  finished : Bool

namespace Core

/-- Input is read whole; a flush turns what is held into blocks. -/
def feed (c : Core) (input : Bytes) : MzFlush → Core
  | .none => { c with held := c.held ++ input }
  | .finish => { held := [], queue := c.queue ++ blocks true (c.held ++ input), finished := true }
  | _ => { c with held := [], queue := c.queue ++ flushed (c.held ++ input) }

/-- As much of the queue as there is room for. -/
def write (c : Core) (room : Nat) : Core × Bytes := ({ c with queue := c.queue.drop room }, c.queue.take room)

end Core

/-- The compressor that stores, as miniz does at level 0. -/
def compressor : Compressor Core where
  init := { held := [], queue := [], finished := false }
  setLevel := fun c _ => c
  deflate := fun c input room flush =>
    let n := if c.finished then 0 else input.length
    let c := if c.finished then c else c.feed input flush
    ((c.write room).1, n, (c.write room).2, c.finished && (c.write room).1.queue.isEmpty)

/-! ## Blocks decode to their data -/

variable {last : Bool}

theorem scan_data (data : Bytes) (h : data ≠ []) :
    scan (.data last data.length) data = (Place.afterBlock last, data, data.length) := by
  induction data with
  | nil => exact absurd rfl h
  | cons b data ih =>
    rw [scan]
    cases data with
    | nil => simp [Place.isOver, Place.absorb, scan]
    | cons b' data =>
      have hlen : ¬ (b :: b' :: data).length ≤ 1 := by simp
      simp only [Place.isOver, Place.absorb, hlen, if_false, Bool.false_eq_true]
      rw [show (b :: b' :: data).length - 1 = (b' :: data).length from rfl, ih (by simp)]
      rfl

theorem scan_length (last : Bool) (lo hi lo' hi' : UInt8) :
    scan .head [if last then 1 else 0, lo, hi, lo', hi'] = (Place.afterLength last [lo, hi, lo', hi'], [], 5) := by
  cases last <;> rfl

variable {data : Bytes}

/-- A block is read as its data. -/
theorem scan_block (h : data.length ≤ 65535) :
    scan .head (block last data) = (Place.afterBlock last, data, (block last data).length) := by
  have hhead := scan_length last (ofNat data.length) (ofNat (data.length / 256))
    (ofNat (255 - data.length % 256)) (ofNat (255 - data.length / 256))
  have hlo : data.length % 256 + 256 * (data.length / 256 % 256) = data.length := by omega
  have hhi : data.length + ((255 - data.length % 256) % 256 + 256 * ((255 - data.length / 256) % 256)) = 65535 := by omega
  simp only [Place.afterLength, toNat_ofNat', Nat.reducePow, hlo, hhi, ne_eq, not_true_eq_false, if_false] at hhead
  by_cases hnil : data = []
  · subst hnil
    rw [length_nil, if_pos rfl] at hhead
    rw [block, append_nil, length_nil, hhead]
    rfl
  · have hpos : data.length ≠ 0 := fun hzero => hnil (length_eq_zero_iff.mp hzero)
    rw [if_neg hpos] at hhead
    rw [block, (scan_append hhead rfl).2, scan_data data hnil, nil_append]
    simp only [length_append, length_cons, length_nil]

theorem scan_blocksFrom {fuel : Nat} (h : data.length ≤ 65535 * (fuel + 1)) :
    scan .head (blocksFrom fuel last data) = (Place.afterBlock last, data, (blocksFrom fuel last data).length) := by
  induction fuel generalizing data with
  | zero => exact scan_block (by omega)
  | succ fuel ih =>
    rw [blocksFrom]
    by_cases hone : data.length ≤ 65535
    · rw [if_pos hone]
      exact scan_block hone
    · have hfirst : scan .head (block false (data.take 65535)) = (.head, data.take 65535, _) :=
        scan_block (by rw [length_take]; omega)
      rw [if_neg hone, (scan_append hfirst rfl).2, ih (by rw [length_drop]; omega), take_append_drop, length_append]

/-- Blocks are read as their data. -/
theorem scan_blocks (last : Bool) (data : Bytes) :
    scan .head (blocks last data) = (Place.afterBlock last, data, (blocks last data).length) :=
  scan_blocksFrom (by omega)

/-- A flush is read as what was held, and ends at a block. -/
theorem scan_flushed (held : Bytes) : scan .head (flushed held) = (.head, held, (flushed held).length) := by
  have hempty : scan .head (block false []) = (.head, [], (block false []).length) := scan_block (by decide)
  unfold flushed
  cases held with
  | nil => exact hempty
  | cons b held =>
    have hblocks : scan .head (blocks false (b :: held)) = (.head, b :: held, _) := scan_blocks false (b :: held)
    rw [isEmpty_cons, if_neg (by decide), (scan_append hblocks rfl).2, hempty, append_nil, length_append]

theorem length_block (last : Bool) (data : Bytes) : (block last data).length = data.length + 5 := by
  simp only [block, length_append, length_cons, length_nil]
  omega

theorem length_blocksFrom_le (fuel : Nat) (last : Bool) (data : Bytes) :
    (blocksFrom fuel last data).length ≤ 2 * data.length + 5 := by
  induction fuel generalizing data with
  | zero =>
    rw [blocksFrom, length_block]
    omega
  | succ fuel ih =>
    rw [blocksFrom]
    by_cases hone : data.length ≤ 65535
    · rw [if_pos hone, length_block]
      omega
    · have hrest := ih (data.drop 65535)
      rw [length_drop] at hrest
      rw [if_neg hone, length_append, length_block, length_take]
      omega

/-- A flush is not much longer than what was held. -/
theorem length_flushed_le (held : Bytes) : (flushed held).length ≤ 2 * held.length + 10 := by
  unfold flushed
  split
  · rw [length_block]
    simp
  · have hblocks := length_blocksFrom_le held.length false held
    rw [length_append, length_block, blocks]
    simp only [length_nil]
    omega

/-! ## The compressor is the decoder's inverse -/

/-- All that has been written or queued decodes to what has been read and is not held. -/
structure CoreRep (c : Core) (x w : Bytes) (asked : Option Bytes) : Prop where
  asked : asked = if c.finished then some [] else none
  drained : c.finished = true → c.held = []
  written : ∃ out, scan .head (w ++ c.queue) = (Place.afterBlock c.finished, out, (w ++ c.queue).length) ∧
    x = out ++ c.held

variable {c : Core} {x w : Bytes}

/-- Writing moves bytes from the queue to the output. -/
theorem CoreRep.write {asked : Option Bytes} (h : CoreRep c x w asked) (room : Nat) :
    CoreRep (c.write room).1 x (w ++ (c.write room).2) asked := by
  obtain ⟨hasked, hdrained, out, hscan, hx⟩ := h
  refine ⟨hasked, hdrained, out, ?_, hx⟩
  have hqueue : w ++ (c.write room).2 ++ (c.write room).1.queue = w ++ c.queue := by
    rw [append_assoc]
    show w ++ (c.queue.take room ++ c.queue.drop room) = _
    rw [take_append_drop]
  rw [hqueue]
  exact hscan

theorem CoreRep.open (h : CoreRep c x w none) : c.finished = false := by
  have hasked := h.asked
  cases hfinished : c.finished
  · rfl
  · simp [hfinished] at hasked

/-- Feeding adds to what has been read. -/
theorem CoreRep.feed (h : CoreRep c x w none) (input : Bytes) (flush : MzFlush) :
    CoreRep (c.feed input flush) (x ++ input) w (if flush = .finish then some [] else none) := by
  have hopen := h.open
  obtain ⟨-, -, out, hscan, hx⟩ := h
  rw [hopen] at hscan
  have hmore (more : Bytes) {place : Place} (hscan' : scan .head more = (place, c.held ++ input, more.length)) :
      scan .head (w ++ (c.queue ++ more)) = (place, x ++ input, (w ++ (c.queue ++ more)).length) := by
    rw [← append_assoc, (scan_append hscan rfl).2, show Place.afterBlock false = .head from rfl, hscan',
      hx, append_assoc]
    simp only [length_append]
  cases flush with
  | none =>
    refine ⟨by simp [Core.feed, hopen], by simp [Core.feed, hopen], out, ?_, ?_⟩
    · show scan .head (w ++ c.queue) = (Place.afterBlock c.finished, _)
      rw [hopen]
      exact hscan
    · rw [hx, append_assoc]
      rfl
  | finish => exact ⟨by simp [Core.feed], fun _ => rfl, x ++ input, hmore _ (scan_blocks true _), (append_nil _).symm⟩
  | partly | sync | full =>
    refine ⟨by simp [Core.feed, hopen], fun _ => rfl, x ++ input, ?_, (append_nil _).symm⟩
    show scan .head _ = (Place.afterBlock c.finished, _)
    rw [hopen]
    exact hmore _ (scan_flushed _)

/-- The most that is still to be written. -/
def Core.owed (c : Core) : Nat := c.queue.length + if c.finished then 0 else 2 * c.held.length + 64

/-- What is written is owed no more. -/
theorem owed_write (c : Core) (room : Nat) : (c.write room).1.owed + (c.write room).2.length = c.owed := by
  have hsplit : (c.queue.take room).length + (c.queue.drop room).length = c.queue.length := by
    rw [← length_append, take_append_drop]
  show (c.queue.drop room).length + (if c.finished then 0 else 2 * c.held.length + 64) +
    (c.queue.take room).length = c.queue.length + if c.finished then 0 else 2 * c.held.length + 64
  omega

/-- Input adds at most twice its length, and a marker. -/
theorem owed_feed (hopen : c.finished = false) (input : Bytes) (flush : MzFlush) :
    (c.feed input flush).owed ≤ c.owed + 2 * input.length + if flush = .finish then 0 else 64 := by
  have hflushed := length_flushed_le (c.held ++ input)
  have hblocks := length_blocksFrom_le (c.held ++ input).length true (c.held ++ input)
  rw [length_append] at hflushed hblocks
  cases flush <;>
    simp [Core.feed, Core.owed, hopen, length_append, blocks] <;>
    omega

theorem length_write (c : Core) (room : Nat) : (c.write room).2.length = min room c.queue.length := length_take

theorem queue_write_of_lt {room : Nat} (h : (c.write room).2.length < room) : (c.write room).1.queue = [] := by
  rw [length_write] at h
  exact drop_eq_nil_iff.mpr (by omega)

theorem deflate_of_open (h : c.finished = false) (input : Bytes) (room : Nat) (flush : MzFlush) :
    compressor.deflate c input room flush =
      (((c.feed input flush).write room).1, input.length, ((c.feed input flush).write room).2,
        (c.feed input flush).finished && ((c.feed input flush).write room).1.queue.isEmpty) := by
  simp [compressor, h]

theorem deflate_of_finished (h : c.finished) (input : Bytes) (room : Nat) (flush : MzFlush) :
    compressor.deflate c input room flush =
      ((c.write room).1, 0, (c.write room).2, (c.write room).1.queue.isEmpty) := by
  simp [compressor, h]

/-- A finished core writes to the end of its stream, or as much as there is room for. -/
theorem write_finished (h : CoreRep c x w (some [])) (hfinished : c.finished) (room : Nat) : if
    (c.write room).1.queue.isEmpty then decode (w ++ (c.write room).2) = ⟨x, .ended (w ++ (c.write room).2).length⟩ else
    (c.write room).2.length = room ∧ CoreRep (c.write room).1 x (w ++ (c.write room).2) (some []) := by
  have hwrite := h.write room
  split
  · next hempty =>
    obtain ⟨-, hdrained, out, hscan, hx⟩ := hwrite
    rw [List.isEmpty_iff.mp hempty, append_nil] at hscan
    have hout : x = out := by rw [hx, hdrained hfinished, append_nil]
    rw [decode, hscan, hout, show (c.write room).1.finished from hfinished]
    rfl
  · next hmore =>
    refine ⟨?_, hwrite⟩
    by_contra hne
    have hlen := length_write c room
    exact hmore (by rw [queue_write_of_lt (by omega)]; rfl)

theorem finished_feed (hopen : c.finished = false) (input : Bytes) {flush : MzFlush}
    (hflush : flush ≠ .finish) : (c.feed input flush).finished = false := by
  cases flush with
  | finish => exact absurd rfl hflush
  | none | partly | sync | full => exact hopen

/-- The compressor and the decoder, as miniz's are assumed to be. -/
def inverse : compressor.Inverse incremental where
  rep := fun c _ x w asked => CoreRep c x w asked
  boundary := fun c => c.finished = false ∧ c.held = [] ∧ c.queue = []
  owed := fun c _ => c.owed
  rep_init := fun _ => ⟨rfl, fun _ => rfl, [], rfl, rfl⟩
  rep_setLevel := fun _ h _ => h
  rep_boundary := by
    rintro c x w - ⟨hopen, hheld, hqueue⟩ -
    refine ⟨by rw [hopen]; rfl, fun _ => hheld, [], ?_, hheld.symm⟩
    rw [hopen, hqueue]
    rfl
  call := by
    intro c d x w input room flush c' n p ended hrep _ hflush hcall
    rw [deflate_of_open hrep.open] at hcall
    cases hcall
    have hfinished := finished_feed hrep.open input hflush
    have hfed := hrep.feed input flush
    have howed := owed_write (c.feed input flush) room
    have hgrows := owed_feed hrep.open input flush
    rw [if_neg hflush] at hfed hgrows
    refine ⟨by rw [hfinished]; rfl, le_rfl, ?_, ?_, fun _ => rfl, by omega, ?_⟩
    · rw [length_write]
      omega
    · rw [List.take_length]
      exact hfed.write room
    · rintro rfl hroom
      exact ⟨hfinished, rfl, queue_write_of_lt hroom⟩
  finish := by
    intro c d x w asked input room c' n p ended hrep hasked _ hcall
    have hsays := hrep.asked
    cases hfinished : c.finished
    · -- The first call that asks for the end reads all that is left, and queues the last blocks.
      rw [hfinished] at hsays
      subst hsays
      rw [deflate_of_open hfinished] at hcall
      cases hcall
      have hfed := hrep.feed input .finish
      have howed := owed_write (c.feed input .finish) room
      have hgrows := owed_feed hrep.open input .finish
      rw [if_pos rfl] at hfed hgrows
      refine ⟨le_rfl, by rw [length_write]; omega, by omega, ?_⟩
      have hwrite := write_finished hfed rfl room
      rw [show (c.feed input .finish).finished = true from rfl, Bool.true_and, List.take_length, List.drop_length]
      by_cases hempty : ((c.feed input .finish).write room).1.queue.isEmpty = true
      · rw [if_pos hempty] at hwrite ⊢
        exact ⟨rfl, hwrite⟩
      · rw [if_neg hempty] at hwrite ⊢
        exact hwrite
    · -- A later one has nothing left to read.
      rw [hfinished] at hsays
      subst hsays
      obtain rfl : input = [] := by simpa using hasked.symm
      rw [deflate_of_finished hfinished] at hcall
      cases hcall
      have howed := owed_write c room
      refine ⟨le_rfl, by rw [length_write]; omega, by omega, ?_⟩
      have hwrite := write_finished hrep hfinished room
      rw [List.append_nil, List.take_nil, List.drop_nil, List.append_nil]
      by_cases hempty : (c.write room).1.queue.isEmpty = true
      · rw [if_pos hempty] at hwrite ⊢
        exact ⟨rfl, hwrite⟩
      · rw [if_neg hempty] at hwrite ⊢
        exact hwrite

end Oam.Zlib.Stored
