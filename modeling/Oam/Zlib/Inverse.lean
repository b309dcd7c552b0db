/-
  What is assumed of miniz's compressor, and what a deflate stream makes of it.

  miniz's raw compressor and raw decoder are INVERSE: once a stream has ended, what the compressor wrote decodes to what
  it read (`Compressor.Inverse`).  A sync flush that is complete ends on a byte boundary, so what is written from there
  on is a stream of its own, behind a window that holds what went before — which is how a preset dictionary is emulated.
-/
import Oam.Zlib.Deflate
import Oam.Zlib.Incremental

namespace Oam.Zlib

open List

/-- miniz's raw compressor, with flushes and level changes, as the inverse of its raw decoder. -/
structure Compressor.Inverse {C K : Type} {m : Miniz C} (raw : m.Incremental) (z : Compressor K) where
  /-- Behind a window that holds `d`, the core has read `read` and written `written`; `asked` is what is left to read at
      a finish. -/
  rep : K → Bytes → Bytes → Bytes → Option Bytes → Prop
  /-- A sync flush has just been completed. -/
  boundary : K → Prop
  /-- A bound on what calls with the flush value still write, if nothing more is read. -/
  owed : K → MzFlush → Nat
  rep_init : ∀ level, rep (z.setLevel z.init level) [] [] [] none
  rep_setLevel : ∀ {core d x w} level, rep core d x w none → boundary core → rep (z.setLevel core level) d x w none
  /-- What follows a byte boundary is a stream of its own. -/
  rep_boundary : ∀ {core x w}, rep core [] x w none → boundary core → x.length ≤ window → rep core x [] [] none
  /-- A call that is not asked to finish stops early only when it is out of room. -/
  call : ∀ {core d x w input room flush core' n p ended}, rep core d x w none → 0 < room → flush ≠ .finish →
    z.deflate core input room flush = (core', n, p, ended) →
    ended = false ∧ n ≤ input.length ∧ p.length ≤ room ∧ rep core' d (x ++ input.take n) (w ++ p) none ∧
      (p.length < room → n = input.length) ∧
      owed core' flush + p.length ≤ owed core flush + 2 * n + 64 ∧
      (flush = .sync → p.length < room → boundary core')
  /-- A call that is asked to finish: it ends the stream, or it is out of room. -/
  finish : ∀ {core d x w asked input room core' n p ended}, rep core d x w asked →
    asked = none ∨ asked = some input → 0 < room → z.deflate core input room .finish = (core', n, p, ended) →
    n ≤ input.length ∧ p.length ≤ room ∧ owed core' .finish + p.length ≤ owed core .finish + 2 * n ∧
      if ended then n = input.length ∧ raw.decode d (w ++ p) = ⟨x ++ input, .ended (w ++ p).length⟩
      else p.length = room ∧ rep core' d (x ++ input.take n) (w ++ p) (some (input.drop n))

namespace NodeDeflate

variable {C K : Type} {m : Miniz C} {raw : m.Incremental} {z : Compressor K} (inv : z.Inverse raw) (k : Checksums)

/-! ## Open and closed streams -/

/-- The deflate data is being written: `x` has been read and `out` has been written, the header first. -/
structure Open (format : Format) (header primed : Bytes) (d : NodeDeflate K) (x out : Bytes)
    (asked : Option Bytes) : Prop where
  notEnded : d.ended = false
  bounded : d.pendingAt ≤ d.pending.length
  trailer : d.trailer = (newTrailer format).update k x
  body : ∃ w, inv.rep d.core primed x w asked ∧ out ++ d.left = header ++ w ∧ (d.left ≠ [] → w = [])

/-- The deflate data has ended with `body`; of the whole stream, `d.left` is still to be written. -/
structure Closed (raw : m.Incremental) (format : Format) (header primed : Bytes) (d : NodeDeflate K)
    (x out : Bytes) : Prop where
  ended : d.ended = true
  body : ∃ w, raw.decode primed w = ⟨x, .ended w.length⟩ ∧
    out ++ d.left = header ++ w ++ ((newTrailer format).update k x).bytes k

theorem left_drain (d : NodeDeflate K) (room : Nat) : (d.drain room).2 ++ (d.drain room).1.left = d.left := by
  simp only [drain, left]
  rw [← drop_drop, take_append_drop]

theorem length_drain (d : NodeDeflate K) (room : Nat) : (d.drain room).2.length = min d.left.length room := by
  simp only [drain, length_take]
  omega

theorem length_drain_add (d : NodeDeflate K) (room : Nat) :
    (d.drain room).2.length + (d.drain room).1.left.length = d.left.length := by
  rw [← length_append, left_drain]

theorem left_drain_of_lt {d : NodeDeflate K} {room : Nat} (h : (d.drain room).2.length < room) :
    (d.drain room).1.left = [] := by
  have hlen := d.length_drain room
  have hadd := d.length_drain_add room
  exact length_eq_zero_iff.mp (by omega)

theorem Trailer.update_append (t : Trailer) (first second : Bytes) :
    (t.update k first).update k second = t.update k (first ++ second) := by
  cases t with
  | none => rfl
  | adler sum => simp only [Trailer.update, k.adler32_append]
  | gzip seen => simp only [Trailer.update, append_assoc]

/-! ## One call -/

section Call

variable {inv k}
variable {format : Format} {header primed : Bytes} {d d' : NodeDeflate K} {x out input p : Bytes}
  {asked : Option Bytes} {room n : Nat} {flush : Int}

theorem deflate_cases (hopen : d.ended = false) (h : d.deflate z k input room flush = (d', n, p)) :
    ((d.drain room).2.length = room ∧ d' = (d.drain room).1 ∧ n = 0 ∧ p = (d.drain room).2) ∨
    ((d.drain room).2.length < room ∧ (d.drain room).1.left = [] ∧ ∃ core written streamEnd,
      z.deflate d.core input (room - (d.drain room).2.length) (flushOf flush) = (core, n, written, streamEnd) ∧
      let closing := (d.drain room).1.afterCall k core (input.take n) streamEnd
      if streamEnd then
        d' = (closing.drain (room - (d.drain room).2.length - written.length)).1 ∧
          p = (d.drain room).2 ++ written ++ (closing.drain (room - (d.drain room).2.length - written.length)).2
      else d' = closing ∧ p = (d.drain room).2 ++ written) := by
  have hended : (d.drain room).1.ended = false := hopen
  have hcore : (d.drain room).1.core = d.core := rfl
  by_cases hfull : (d.drain room).2.length = room
  · left
    simp only [deflate, hfull, or_true, if_true, Prod.mk.injEq] at h
    obtain ⟨rfl, rfl, rfl⟩ := h
    exact ⟨hfull, rfl, rfl, rfl⟩
  · right
    have hlt : (d.drain room).2.length < room := by
      have := d.length_drain room
      omega
    refine ⟨hlt, left_drain_of_lt hlt, ?_⟩
    cases hcall : z.deflate d.core input (room - (d.drain room).2.length) (flushOf flush) with
    | mk core answer =>
      obtain ⟨_, written, streamEnd⟩ := answer
      rw [deflate] at h
      simp only [hended, hfull, or_self, Bool.false_eq_true, if_false, hcore, hcall] at h
      cases streamEnd with
      | false =>
        simp only [Bool.false_eq_true, if_false, Prod.mk.injEq] at h
        obtain ⟨rfl, rfl, rfl⟩ := h
        exact ⟨core, written, false, rfl, rfl, rfl⟩
      | true =>
        simp only [if_true, Prod.mk.injEq] at h
        obtain ⟨rfl, rfl, rfl⟩ := h
        exact ⟨core, written, true, rfl, rfl, rfl⟩

theorem Open.drain (hopen : Open inv k format header primed d x out asked) (room : Nat) :
    Open inv k format header primed (d.drain room).1 x (out ++ (d.drain room).2) asked := by
  obtain ⟨hnot, _, htrailer, w, hrep, hout, hw⟩ := hopen
  refine ⟨hnot, ?_, htrailer, w, hrep, ?_, fun hleft => hw fun hnil => hleft ?_⟩
  · show d.pendingAt + min (d.pending.drop d.pendingAt).length room ≤ d.pending.length
    rw [length_drop]
    omega
  · rw [append_assoc, left_drain, hout]
  · have hadd := d.length_drain_add room
    rw [hnil, length_nil] at hadd
    exact length_eq_zero_iff.mp (by omega)

structure CallSpec (inv : z.Inverse raw) (k : Checksums) (format : Format) (header primed : Bytes)
    (d d' : NodeDeflate K) (x out input p : Bytes) (room n : Nat) (flush : MzFlush) : Prop where
  read : n ≤ input.length
  wrote : p.length ≤ room
  stays : Open inv k format header primed d' (x ++ input.take n) (out ++ p) none
  drained : p.length < room → n = input.length
  owes : inv.owed d'.core flush + d'.left.length + p.length ≤ inv.owed d.core flush + d.left.length + 2 * n + 64
  boundary : flush = .sync → p.length < room → inv.boundary d'.core

theorem deflate_open (hopen : Open inv k format header primed d x out none)
    (hflush : flushOf flush ≠ .finish) (h : d.deflate z k input room flush = (d', n, p)) :
    CallSpec inv k format header primed d d' x out input p room n (flushOf flush) := by
  have hadd := d.length_drain_add room
  rcases deflate_cases hopen.notEnded h with ⟨_, rfl, rfl, rfl⟩ | ⟨hlt, hleft, core, written, _, hcall, hrest⟩
  · have hstays := hopen.drain room
    refine ⟨Nat.zero_le _, by omega, ?_, fun hlt => by omega, ?_, fun _ hlt => by omega⟩
    · rw [take_zero, append_nil]
      exact hstays
    · show inv.owed d.core (flushOf flush) + _ + _ ≤ _
      omega
  · obtain ⟨hnot, hbounded, htrailer, w, hrep, hout, -⟩ := hopen.drain room
    obtain ⟨rfl, hn, hp, hrep', hall, _, hboundary⟩ :=
      inv.call (show inv.rep d.core primed x w none from hrep) (by omega) hflush hcall
    simp only [Bool.false_eq_true, if_false] at hrest
    obtain ⟨rfl, rfl⟩ := hrest
    rw [hleft, append_nil] at hout
    rw [hleft, length_nil] at hadd
    -- nothing is left of the header, so what miniz wrote is the body's continuation
    have hleft' : ((d.drain room).1.afterCall k core (input.take n) false).left = [] := hleft
    refine ⟨hn, ?_, ⟨hnot, hbounded, ?_, w ++ written, hrep', ?_, fun hne => absurd hleft' hne⟩, ?_, ?_, ?_⟩
    · rw [length_append]
      omega
    · show (d.drain room).1.trailer.update k (input.take n) = _
      rw [htrailer, Trailer.update_append]
    · rw [hleft', append_nil, ← append_assoc, hout, append_assoc]
    · intro hshort
      rw [length_append] at hshort
      exact hall (by omega)
    · rw [hleft', length_append, length_nil]
      show inv.owed core (flushOf flush) + 0 + _ ≤ _
      omega
    · intro hsync hshort
      rw [length_append] at hshort
      exact hboundary hsync (by omega)

theorem length_trailer_bytes (t : Trailer) : (t.bytes k).length ≤ 8 := by
  cases t <;> simp [Trailer.bytes]

/-- What a call does that is asked to finish: it closes the stream, or it is out of room. -/
inductive FinishSpec (inv : z.Inverse raw) (k : Checksums) (format : Format) (header primed : Bytes)
    (d d' : NodeDeflate K) (x out input p : Bytes) (room n : Nat) : Prop
  | closes (hread : n = input.length) (hwrote : p.length ≤ room)
      (hclosed : Closed k raw format header primed d' (x ++ input) (out ++ p))
      (hdrained : p.length < room → d'.left = [])
      (howes : d'.left.length + p.length ≤ inv.owed d.core .finish + d.left.length + 2 * n + 8)
  | goesOn (hread : n ≤ input.length) (hwrote : p.length = room) (asked : Option Bytes)
      (hasked : asked = none ∨ asked = some (input.drop n))
      (hopen : Open inv k format header primed d' (x ++ input.take n) (out ++ p) asked)
      (howes : inv.owed d'.core .finish + d'.left.length + p.length ≤ inv.owed d.core .finish + d.left.length + 2 * n)

theorem deflate_finish (hopen : Open inv k format header primed d x out asked)
    (hasked : asked = none ∨ asked = some input) (h : d.deflate z k input room zFinish = (d', n, p)) :
    FinishSpec inv k format header primed d d' x out input p room n := by
  have hadd := d.length_drain_add room
  rcases deflate_cases hopen.notEnded h with ⟨hfull, rfl, rfl, rfl⟩ | ⟨_, hleft, core, written, streamEnd, hcall, hrest⟩
  · have hstays := hopen.drain room
    refine .goesOn (Nat.zero_le _) hfull asked (by simpa using hasked) ?_ ?_
    · rw [take_zero, append_nil]
      exact hstays
    · show inv.owed d.core .finish + _ + _ ≤ _
      omega
  · obtain ⟨hnot, hbounded, htrailer, w, hrep, hout, -⟩ := hopen.drain room
    obtain ⟨hn, hp, _, hend⟩ :=
      inv.finish (show inv.rep d.core primed x w asked from hrep) hasked (by omega) hcall
    rw [hleft, append_nil] at hout
    rw [hleft, length_nil] at hadd
    cases streamEnd with
    | false =>
      simp only [Bool.false_eq_true, if_false] at hrest hend
      obtain ⟨rfl, rfl⟩ := hrest
      obtain ⟨_, hrep'⟩ := hend
      have hleft' : ((d.drain room).1.afterCall k core (input.take n) false).left = [] := hleft
      refine .goesOn hn ?_ (some (input.drop n)) (.inr rfl)
        ⟨hnot, hbounded, ?_, w ++ written, hrep', ?_, fun hne => absurd hleft' hne⟩ ?_
      · rw [length_append]
        omega
      · show (d.drain room).1.trailer.update k (input.take n) = _
        rw [htrailer, Trailer.update_append]
      · rw [hleft', append_nil, ← append_assoc, hout, append_assoc]
      · rw [hleft', length_append, length_nil]
        show inv.owed core .finish + 0 + _ ≤ _
        omega
    | true =>
      simp only [if_true] at hrest hend
      obtain ⟨rfl, hdecode⟩ := hend
      rw [take_length] at hrest
      have hall : (d.drain room).1.pending.length ≤ (d.drain room).1.pendingAt := drop_eq_nil_iff.mp hleft
      have heq : (d.drain room).1.pendingAt = (d.drain room).1.pending.length := by omega
      have hclosing : ((d.drain room).1.afterCall k core input true).left =
          ((newTrailer format).update k (x ++ input)).bytes k := by
        simp only [afterCall, if_true, left, htrailer, Trailer.update_append, heq, drop_left]
      generalize hd1 : (d.drain room).1.afterCall k core input true = d1 at hrest hclosing
      obtain ⟨rfl, rfl⟩ := hrest
      have hadd' := d1.length_drain_add (room - (d.drain room).2.length - written.length)
      have hlen := d1.length_drain (room - (d.drain room).2.length - written.length)
      have hsplit := d1.left_drain (room - (d.drain room).2.length - written.length)
      have htrail := length_trailer_bytes (k := k) ((newTrailer format).update k (x ++ input))
      rw [hclosing] at hadd' hlen hsplit
      refine .closes rfl ?_ ⟨?_, w ++ written, hdecode, ?_⟩ ?_ ?_
      · simp only [length_append]
        omega
      · rw [← hd1]
        rfl
      · rw [← append_assoc header, ← hout, ← hsplit]
        simp only [append_assoc]
      · intro hshort
        simp only [length_append] at hshort
        exact left_drain_of_lt (by omega)
      · simp only [length_append]
        omega

theorem deflate_closed (hclosed : Closed k raw format header primed d x out)
    (h : d.deflate z k input room flush = (d', n, p)) : n = 0 ∧ p.length ≤ room ∧ Closed k raw format header primed d' x
    (out ++ p) ∧ d'.left.length + p.length = d.left.length ∧ (p.length < room → d'.left = []) := by
  obtain ⟨hended, w, hdecode, hout⟩ := hclosed
  have hended' : (d.drain room).1.ended := hended
  simp only [deflate, hended', true_or, if_true, Prod.mk.injEq] at h
  obtain ⟨rfl, rfl, rfl⟩ := h
  have hadd := d.length_drain_add room
  have hlen := d.length_drain room
  refine ⟨rfl, by omega, ⟨hended, w, hdecode, ?_⟩, by omega, left_drain_of_lt⟩
  rw [append_assoc, left_drain, hout]

end Call

end NodeDeflate

end Oam.Zlib
