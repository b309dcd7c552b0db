/-
  Which request a close through an old response reaches (`oam_core/src/http_client/connector.rs`, `pool.rs`).  A request
  is handed the connection before it registers its lease, and `close_connection` stores its flag after it loads the
  lease counter; each gap alone lets a close through to another request (`closed_under_another`).
-/
import Oam.Lib.Trace
import Mathlib.Algebra.Group.Nat.Defs

namespace Oam.Fetch.Lease

open List Trace

/-! ## Data -/

/-- The requests are numbered in the order the pool hands them the connection. -/
structure Conn where
  leases : Nat := 0
  requested : Bool := false
  reset : Bool := false
  live : Bool := true
  /-- How many requests were handed the connection, and whether the pool has it to hand out. -/
  handed : Nat := 0
  free : Bool := true
  /-- `ConnInfo::lease` of each request that took one, in order. -/
  registered : List Nat := []
  /-- The calls of `close_connection` that passed the comparison: the lease and `reset` of each. -/
  closing : List (Nat × Bool) := []

inductive Act where
  | checkout
  | takeLease
  | park
  | load (lease : Nat) (reset : Bool)
  | close (call : Nat)
  | drop

/-! ## Program -/

/-- An HTTP/1 connection is with one request at a time, which registers before it sends. The log has the calls that set
    the flag. -/
def step (s : Conn) : Act → Conn × List (Nat × Bool)
  | .checkout => (if s.free && s.live then { s with handed := s.handed + 1, free := false } else s, [])
  | .takeLease =>
    let lease := (s.leases + 1) % 2 ^ 64
    (if s.registered.length < s.handed then { s with leases := lease, registered := s.registered ++ [lease] } else s, [])
  | .park => (if s.registered.length = s.handed then { s with free := true } else s, [])
  | .load lease reset =>
    (if s.live && s.leases == lease then { s with closing := s.closing ++ [(lease, reset)] } else s, [])
  | .close call =>
    match s.closing[call]? with
    | none => (s, [])
    | some (lease, reset) =>
      ({ s with requested := true, reset := s.reset || reset, closing := s.closing.eraseIdx call }, [(lease, reset)])
  | .drop => ({ s with live := false }, [])

/-! ## Specification -/

/-- **Nobody else has it.** -/
def Own (s : Conn) (lease : Nat) : Prop := ∀ r, s.registered[r]? = some lease ↔ r + 1 = s.handed

/-- Out of both gaps: no request is handed the connection while a call is between its load and its store, and no call
    passes the comparison while a request that was handed the connection has yet to register; the counter does not
    wrap. -/
def clear (s : Conn) : Act → Bool
  | .checkout => s.closing.isEmpty || !(s.free && s.live)
  | .takeLease => s.leases + 1 < 2 ^ 64 || s.handed ≤ s.registered.length
  | .load lease _ => s.registered.length == s.handed || !(s.live && s.leases == lease)
  | _ => true

/-! ## Correctness -/

structure Inv (s : Conn) : Prop where
  registered : s.registered = range' 1 s.leases
  bounds : s.leases ≤ s.handed ∧ s.handed ≤ s.leases + 1
  free : s.free = true → s.handed = s.leases
  closing : ∀ call ∈ s.closing, call.1 = s.leases ∧ s.handed = s.leases

theorem Inv.length {s : Conn} (h : Inv s) : s.registered.length = s.leases := by
  rw [h.registered, length_range']

theorem Inv.own {s : Conn} (h : Inv s) {call : Nat × Bool} (hc : call ∈ s.closing) : Own s call.1 := by
  intro r
  obtain ⟨hl, hh⟩ := h.closing call hc
  rw [h.registered, hl, hh]
  by_cases hr : r < s.leases
  · rw [getElem?_range' hr, Option.some_inj]
    omega
  · rw [getElem?_eq_none (by rw [length_range']; omega)]
    simp only [reduceCtorEq, false_iff]
    omega

theorem inv_step (s : Conn) (a : Act) (hok : clear s a) (h : Inv s) : Inv (step s a).1 := by
  have hlen := h.length
  cases a with
  | checkout =>
    show Inv (if s.free && s.live then _ else s)
    split
    next hf =>
      have hh := h.free (Bool.and_eq_true_iff.mp hf).1
      refine ⟨h.registered, ?_, nofun, ?_⟩
      · show s.leases ≤ s.handed + 1 ∧ s.handed + 1 ≤ s.leases + 1
        omega
      · intro call hc
        rw [clear, hf, Bool.not_true, Bool.or_false] at hok
        rw [isEmpty_iff.mp hok] at hc
        cases hc
    · exact h
  | takeLease =>
    show Inv (if s.registered.length < s.handed then _ else s)
    split
    next hr =>
      have hb := h.bounds
      have hlt : s.leases + 1 < 2 ^ 64 := by
        have hlt : s.leases + 1 < 2 ^ 64 ∨ s.handed ≤ s.registered.length := by simpa only [clear, Bool.or_eq_true,
          decide_eq_true_eq] using hok
        omega
      rw [Nat.mod_eq_of_lt hlt]
      refine ⟨?_, ?_, ?_, ?_⟩
      · show s.registered ++ [s.leases + 1] = range' 1 (s.leases + 1)
        rw [h.registered, range'_concat, Nat.one_mul, Nat.add_comm]
      · show s.leases + 1 ≤ s.handed ∧ s.handed ≤ s.leases + 1 + 1
        omega
      · intro hf
        have := h.free hf
        omega
      · intro call hc
        have := (h.closing call hc).2
        omega
    · exact h
  | park =>
    show Inv (if s.registered.length = s.handed then _ else s)
    split
    next hr => exact ⟨h.registered, h.bounds, fun _ => by rw [← hr, hlen], h.closing⟩
    · exact h
  | load lease reset =>
    show Inv (if s.live && s.leases == lease then _ else s)
    split
    next hl =>
      refine ⟨h.registered, h.bounds, h.free, ?_⟩
      intro call hc
      rcases mem_append.mp hc with hc | hc
      · exact h.closing call hc
      · rw [mem_singleton.mp hc]
        rw [clear, hl, Bool.not_true, Bool.or_false] at hok
        have hreg : s.registered.length = s.handed := beq_iff_eq.mp hok
        exact ⟨(beq_iff_eq.mp (Bool.and_eq_true_iff.mp hl).2).symm, by rw [← hreg, hlen]⟩
    · exact h
  | close call =>
    show Inv (match s.closing[call]? with | none => (s, []) | some (lease, reset) => _).1
    split
    · exact h
    · exact ⟨h.registered, h.bounds, h.free, fun c hc => h.closing c (mem_of_mem_eraseIdx hc)⟩
  | drop => exact ⟨h.registered, h.bounds, h.free, h.closing⟩

/-- **A close reaches the request it was asked through, in every run that stays out of the gaps.** -/
theorem closes_own_lease (acts : List Act) (hok : Along step clear {} acts) (call lease : Nat) (reset : Bool)
    (hc : (run step {} acts).1.closing[call]? = some (lease, reset)) : Own (run step {} acts).1 lease := by
  have hstart : Inv {} := ⟨rfl, by decide, fun _ => rfl, nofun⟩
  exact (run_keeps_along Inv inv_step hstart hok).own (mem_of_getElem? hc)

/-- The connection has gone to a third request: closes through the first two responses, whose leases are stale, are
    refused, also where the third has yet to register; one through its own is not. -/
def handedOn : List Act :=
  [.checkout, .takeLease, .park, .checkout, .takeLease, .park, .checkout, .load 1 true, .takeLease, .load 2 true,
    .load 3 false, .checkout]

theorem closes_own_lease_handedOn :
    (run step {} handedOn).1.closing = [(3, false)] ∧ Own (run step {} handedOn).1 3 :=
  ⟨rfl, closes_own_lease handedOn (by decide) 0 3 false rfl⟩

/-- The second request is handed the connection between the load and the store. -/
def storeLate : Conn := (run step {} [.checkout, .takeLease, .park, .load 1 false, .checkout, .takeLease]).1

def leaseLate : Conn := (run step {} [.checkout, .takeLease, .park, .checkout, .load 1 false]).1

/-- Both closes are asked under the other request's lease. -/
theorem closed_under_another :
    (storeLate.closing = [(1, false)] ∧ ¬Own storeLate 1 ∧ (step storeLate (.close 0)).1.requested = true) ∧
    leaseLate.closing = [(1, false)] ∧ ¬Own leaseLate 1 ∧ (step leaseLate (.close 0)).1.requested = true := by
  refine ⟨⟨rfl, fun h => ?_, rfl⟩, rfl, fun h => ?_, rfl⟩
  · exact absurd ((h 1).mpr rfl) (by decide)
  · exact absurd ((h 1).mpr rfl) (by decide)

end Oam.Fetch.Lease
