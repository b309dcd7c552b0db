/-
  Deflate with stored blocks only: what miniz reads and writes at level 0.  Every byte of such a stream makes at most
  one byte of output decodable, so a decoder of it is a byte machine, and an incremental one.
-/
import Oam.Zlib.Incremental

namespace Oam.Zlib.Stored

open List

/-! ## The decoder -/

inductive Place where
  | head
  | length (last : Bool) (seen : Bytes)
  | data (last : Bool) (left : Nat)
  | ended
  | bad
  deriving DecidableEq

namespace Place

def isOver : Place → Bool
  | ended | bad => true
  | _ => false

def afterBlock (last : Bool) : Place := if last then .ended else .head

/-- The four length bytes are in: the second pair is the complement of the first. -/
def afterLength (last : Bool) : Bytes → Place
  | [lo, hi, lo', hi'] =>
    let left := lo.toNat + 256 * hi.toNat
    if left + (lo'.toNat + 256 * hi'.toNat) ≠ 65535 then .bad
    else if left = 0 then afterBlock last
    else .data last left
  | seen => .length last seen

def absorb : Place → UInt8 → Place × Bytes
  | head, b => (if b = 0 then .length false [] else if b = 1 then .length true [] else .bad, [])
  | length last seen, b => (afterLength last (seen ++ [b]), [])
  | data last left, b => (if left ≤ 1 then afterBlock last else .data last (left - 1), [b])
  | ended, _ => (.ended, [])
  | bad, _ => (.bad, [])

theorem length_absorb_le (at_ : Place) (b : UInt8) : (at_.absorb b).2.length ≤ 1 := by
  cases at_ <;> simp [absorb]

end Place

/-- Read up to the end of the stream: the place, the output, and the bytes read. -/
def scan : Place → Bytes → Place × Bytes × Nat
  | place, [] => (place, [], 0)
  | place, b :: input =>
    if place.isOver then (place, [], 0)
    else
      let (next, out) := place.absorb b
      let (last, rest, n) := scan next input
      (last, out ++ rest, n + 1)

variable {place : Place}

/-- Read up to the end of the stream, or until the room is used up. -/
def scanRoom : Place → Bytes → Nat → Place × Bytes × Nat
  | place, [], _ => (place, [], 0)
  | place, b :: input, room =>
    if place.isOver || room = 0 then (place, [], 0)
    else
      let (next, out) := place.absorb b
      let (last, rest, n) := scanRoom next input (room - out.length)
      (last, out ++ rest, n + 1)

def fate (place : Place) (read : Nat) : Fate :=
  match place with
  | .ended => .ended read
  | .bad => .failed false
  | _ => .running

def decode (input : Bytes) : Reading :=
  match scan .head input with
  | (place, out, read) => ⟨out, fate place read⟩

def status (place : Place) (starved : Bool) : Status :=
  match place with
  | .ended => .done
  | .bad => .failed
  | _ => if starved then .needsMoreInput else .hasMoreOutput

def miniz : Miniz Place where
  init := .head
  decompress := fun place _ src _ room =>
    match scanRoom place src room with
    | (place, out, read) => (place, status place (read = src.length), read, out)

/-! ## It is incremental -/

theorem scan_append_of_over {u v : Bytes} (h : (scan place u).1.isOver) :
    scan place (u ++ v) = scan place u := by
  induction u generalizing place with
  | nil =>
    cases v with
    | nil => rfl
    | cons => exact if_pos h
  | cons b u ih =>
    rw [cons_append, scan, scan]
    by_cases hover : place.isOver
    · rw [if_pos hover, if_pos hover]
    · rw [scan, if_neg hover] at h
      rw [if_neg hover, if_neg hover]
      simp only [ih h]

theorem scan_append {place next : Place} {u v out : Bytes} {n : Nat} (h : scan place u = (next, out, n))
    (hnot : next.isOver = false) : n = u.length ∧ scan place (u ++ v) =
    ((scan next v).1, out ++ (scan next v).2.1, n + (scan next v).2.2) := by
  induction u generalizing place out n with
  | nil =>
    simp only [scan, Prod.mk.injEq] at h
    obtain ⟨rfl, rfl, rfl⟩ := h
    simp
  | cons b u ih =>
    rw [scan] at h
    by_cases hover : place.isOver
    · rw [if_pos hover] at h
      simp only [Prod.mk.injEq] at h
      rw [← h.1, hover] at hnot
      cases hnot
    · rw [if_neg hover] at h
      simp only [Prod.mk.injEq] at h
      obtain ⟨hnext, rfl, rfl⟩ := h
      obtain ⟨hlen, happ⟩ := ih (Prod.ext hnext rfl : scan (place.absorb b).1 u = (next, _, _))
      refine ⟨by rw [hlen, length_cons], ?_⟩
      rw [cons_append, scan, if_neg hover]
      simp only [happ, append_assoc]
      simp only [Prod.mk.injEq, true_and]
      omega

theorem scan_of_scanRoom (place : Place) (src : Bytes) (room : Nat) :
    scan place (src.take (scanRoom place src room).2.2) = scanRoom place src room := by
  induction src generalizing place room with
  | nil => rfl
  | cons b src ih =>
    rw [scanRoom]
    by_cases hstop : (place.isOver || room = 0)
    · rw [if_pos hstop]
      rfl
    rw [if_neg hstop]
    simp only [Bool.or_eq_true, not_or] at hstop
    simp only [take_succ_cons]
    rw [scan, if_neg hstop.1]
    simp only [ih]

theorem scanRoom_read_le (place : Place) (src : Bytes) (room : Nat) : (scanRoom place src room).2.2 ≤ src.length := by
  induction src generalizing place room with
  | nil => exact Nat.le_refl _
  | cons b src ih =>
    rw [scanRoom]
    split
    · exact Nat.zero_le _
    · exact Nat.succ_le_succ (ih _ _)

theorem scanRoom_stops (place : Place) (src : Bytes) (room : Nat) (hnot : (scanRoom place src room).1.isOver = false)
    (hmore : (scanRoom place src room).2.2 ≠ src.length) : (scanRoom place src room).2.1.length = room := by
  induction src generalizing place room with
  | nil => exact absurd rfl hmore
  | cons b src ih =>
    rw [scanRoom] at hnot hmore ⊢
    by_cases hstop : (place.isOver || room = 0)
    · rw [if_pos hstop] at hnot ⊢
      simp_all
    rw [if_neg hstop] at hnot hmore ⊢
    simp only [length_cons, ne_eq, Nat.add_right_cancel_iff] at hmore
    have hrest := ih _ _ hnot hmore
    have hone := place.length_absorb_le b
    simp only [Bool.or_eq_true, decide_eq_true_eq, not_or] at hstop
    simp only [length_append, hrest]
    omega

theorem scan_read_le (place : Place) (input : Bytes) : (scan place input).2.2 ≤ input.length := by
  induction input generalizing place with
  | nil => exact Nat.le_refl _
  | cons b input ih =>
    rw [scan]
    split
    · exact Nat.zero_le _
    · exact Nat.succ_le_succ (ih _)

theorem fate_eq_ended {n read : Nat} (h : fate place n = .ended read) : place = .ended ∧ n = read := by
  cases place <;> simp_all [fate]

theorem fate_eq_failed {n : Nat} {tooFar : Bool} (h : fate place n = .failed tooFar) :
    place = .bad ∧ tooFar = false := by
  cases place <;> simp_all [fate]

theorem decode_append_of_over {u v : Bytes} (h : (scan .head u).1.isOver) : decode (u ++ v) = decode u := by
  rw [decode, scan_append_of_over h, decode]

/-- A stored stream that is not over, fed `u`, has one place. -/
def Rep (place : Place) (u out : Bytes) : Prop := scan .head u = (place, out, u.length) ∧ place.isOver = false

theorem call_answers {u out : Bytes} (h : scan .head u = (place, out, u.length))
    (hnot : place.isOver = false) (src : Bytes) (room : Nat) :
    CallAnswers decode Rep u out src room
      ((scanRoom place src room).1, status (scanRoom place src room).1 ((scanRoom place src room).2.2 = src.length),
        (scanRoom place src room).2.2, (scanRoom place src room).2.1) := by
  have hle := scanRoom_read_le place src room
  have hstops := scanRoom_stops place src room
  have hscan := scan_of_scanRoom place src room
  generalize scanRoom place src room = r at hle hstops hscan
  obtain ⟨next, p, n⟩ := r
  -- the whole stream up to where this call stopped
  have hread : scan .head (u ++ src.take n) = (next, out ++ p, (u ++ src.take n).length) := by
    rw [(scan_append h hnot).2, hscan, length_append, length_take, Nat.min_eq_left hle]
  have hrunning (hnext : next.isOver = false) : CallAnswers decode Rep u out src room
        (next, if n = src.length then .needsMoreInput else .hasMoreOutput, n, p) := by
    have hfate (read : Nat) : fate next read = .running := by cases next <;> simp_all [fate, Place.isOver]
    by_cases hall : n = src.length
    · rw [if_pos hall]
      rw [hall, take_length] at hread
      exact ⟨hall, ⟨hread, hnext⟩, by rw [decode, hread]; simp only [hfate]⟩
    · rw [if_neg hall]
      refine ⟨hle, hstops hnext hall, ⟨hread, hnext⟩, fun read hended => ?_⟩
      rw [decode, hread] at hended
      simp only [hfate] at hended
      cases hended
  cases next with
  | ended => exact ⟨hle, by rw [decode, hread]; rfl⟩
  | bad =>
    refine ⟨false, ?_⟩
    have hall : scan .head (u ++ src) = scan .head (u ++ src.take n) := by
      rw [← take_append_drop n src, ← append_assoc, take_append_drop]
      exact scan_append_of_over (by rw [hread]; rfl)
    rw [decode, hall, hread]
    rfl
  | head | length | data => simpa [status] using hrunning rfl

/-- The stored decoder is incremental.  It copies nothing, so the history plays no part. -/
def incremental : miniz.Incremental where
  decode := fun _ => decode
  rep := fun place _ => Rep place
  decode_nil := fun _ => rfl
  decode_grows := by
    intro d u v
    by_cases hover : (scan .head u).1.isOver = true
    · rewrite [decode_append_of_over hover]
      exact List.prefix_rfl
    · obtain ⟨-, happ⟩ := scan_append (v := v) (Prod.ext rfl rfl : scan .head u = (_, _, _))
        (Bool.not_eq_true _ ▸ hover)
      rw [decode, decode, happ]
      exact List.prefix_append _ _
  decode_ended := by
    intro d u v n h
    obtain ⟨hended, rfl⟩ := fate_eq_ended h
    exact ⟨scan_read_le _ u, decode_append_of_over (by rw [hended]; rfl)⟩
  decode_failed := by
    intro d u v tooFar h
    obtain ⟨hbad, -⟩ := fate_eq_failed h
    exact decode_append_of_over (by rw [hbad]; rfl)
  decode_tooFar := by
    intro d u h
    cases (fate_eq_failed h).2
  rep_init := fun _ => ⟨rfl, rfl⟩
  rep_out := by
    rintro place d u out ⟨h, -⟩
    rewrite [decode, h]
    exact List.prefix_rfl
  call := by
    rintro place d u out src hist room ⟨h, hnot⟩ - -
    exact call_answers h hnot src room
  padded_same := fun _ _ _ => rfl
  padded_tooFar := by
    intro place d u out src room core n p h hroom hfate
    cases (fate_eq_failed hfate).2

end Oam.Zlib.Stored
