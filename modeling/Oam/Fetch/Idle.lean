/-
  What `Pool::has_idle` says of a checkout (`oam_core/src/http_client/pool.rs`).  The scan changes NOTHING, the checkout
  pops what it passes and marks the origin on its way; the two agree because a mark that the loop sets is one that it
  reads again, as the scan's flag is.  Instants and durations are in nanoseconds.
-/
import Oam.Fetch.Pool

namespace Oam.Fetch.Idle

open List Pool

/-! ## Data -/

def freshGate : Nat := 1000000
def settle : Nat := 250 * 1000000
def distrust : Nat := 60 * 1000000000
def defaultIdleTimeout : Nat := 90 * 1000000000

structure IdleH1 where
  sender : Nat
  isClosed : Bool
  peerClosed : Bool
  closedHere : Bool
  parkedAt : Nat

structure H2Entry where
  sender : Nat
  isClosed : Bool

/-- A pool as it is built: with hyper-util's timeout, or with none for the supplied route. -/
structure PoolInner (K : Type) where
  idle : K → List IdleH1
  h2 : K → Option H2Entry
  closesEarly : K → Option Nat
  idleTimeout : Option Nat
  built : idleTimeout = none ∨ idleTimeout = some defaultIdleTimeout

inductive Conn where
  | h2 (sender : Nat)
  | h1 (sender parkedFor : Nat)
deriving DecidableEq

/-- How the wait for a fresh entry ends: if it died, by whose hand and when. -/
inductive Wait where
  | lives
  | dies (closedHere : Bool) (later : Nat)

/-! ## Program -/

def IdleH1.isDead (e : IdleH1) : Bool := e.isClosed || e.peerClosed

def IdleH1.settling (e : IdleH1) (now : Nat) : Bool := !e.isDead && decide (now - e.parkedAt < settle)

/-- Found dead this soon, and not closed from this side. -/
def IdleH1.early (e : IdleH1) (now : Nat) : Bool := decide (now - e.parkedAt < settle) && !e.closedHere

def freshDelay (parkedAt now window : Nat) : Option Nat :=
  if now - parkedAt < window then some (window - (now - parkedAt)) else none

def idleLeft (timeout now parkedAt : Nat) : Option Nat :=
  (if now - parkedAt ≤ timeout then some (timeout - (now - parkedAt)) else none).filter (· != 0)

def expired (timeout : Option Nat) (now : Nat) (e : IdleH1) : Bool :=
  timeout.any fun timeout => (idleLeft timeout now e.parkedAt).isNone

def gone (timeout : Option Nat) (now : Nat) (e : IdleH1) : Bool := expired timeout now e || e.isDead

section
variable {K : Type} [DecidableEq K]

def closesEarly (marks : K → Option Nat) (key : K) (now : Nat) : Bool := (marks key).any (decide <| · > now)

def sawAnEarlyClose (marks : K → Option Nat) (key : K) (now : Nat) : K → Option Nat :=
  put (fun k => (marks k).filter (decide <| · > now)) key (some (now + distrust))

def reuseH2 (pool : PoolInner K) (key : K) : Option Conn × PoolInner K :=
  match pool.h2 key with
  | none => (none, pool)
  | some entry =>
    if entry.isClosed then (none, { pool with h2 := put pool.h2 key none }) else (some (.h2 entry.sender), pool)

/-- The loop of `has_idle`. -/
def scan (timeout : Option Nat) (now : Nat) : Bool → List IdleH1 → Bool
  | _, [] => false
  | marked, e :: deque =>
    if expired timeout now e then scan timeout now marked deque
    else if e.isDead then scan timeout now (marked || e.early now) deque
    else !(marked && e.settling now)

/-- `key` is what `pool_key` gives for the request. -/
def hasIdle (pool : PoolInner K) (key : Option K) (now : Nat) : Bool :=
  match key with
  | none => false
  | some key =>
    if pool.idleTimeout.isNone then false
    else if (pool.h2 key).any fun entry => !entry.isClosed then true
    else scan pool.idleTimeout now (closesEarly pool.closesEarly key now) (pool.idle key)

/-- The loop of `reuse_h1`, on the marks and the deque of `key`. -/
def reuseLoop (wait : IdleH1 → Nat → Wait) (timeout : Option Nat) (key : K) :
    Nat → (K → Option Nat) → List IdleH1 → Option Conn × (K → Option Nat) × List IdleH1
  | _, marks, [] => (none, marks, [])
  | now, marks, e :: deque =>
    if closesEarly marks key now && e.settling now then (none, marks, e :: deque)
    else if expired timeout now e then reuseLoop wait timeout key now marks deque
    else if e.isDead then
      reuseLoop wait timeout key now (if e.early now then sawAnEarlyClose marks key now else marks) deque
    else
      match (freshDelay e.parkedAt now freshGate).elim Wait.lives (wait e) with
      | .lives => (some (.h1 e.sender (now - e.parkedAt)), marks, deque)
      | .dies closedHere later =>
        reuseLoop wait timeout key later (if closedHere then marks else sawAnEarlyClose marks key later) deque

def reuseH1 (wait : IdleH1 → Nat → Wait) (pool : PoolInner K) (key : K) (now : Nat) : Option Conn × PoolInner K :=
  let (conn, marks, deque) := reuseLoop wait pool.idleTimeout key now pool.closesEarly (pool.idle key)
  (conn, { pool with idle := put pool.idle key deque, closesEarly := marks })

/-- The connection that a checkout reuses; with `none` it goes on to open one. -/
def checkout (wait : IdleH1 → Nat → Wait) (pool : PoolInner K) (key : K) (allowReuse : Bool) (now : Nat) :
    Option Conn × PoolInner K :=
  if allowReuse && pool.idleTimeout.isSome then
    match reuseH2 pool key with
    | (some conn, pool) => (some conn, pool)
    | (none, pool) => reuseH1 wait pool key now
  else (none, pool)

/-! ## Correctness -/

theorem closesEarly_saw (marks : K → Option Nat) (key : K) (now : Nat) :
    closesEarly (sawAnEarlyClose marks key now) key now := by
  rw [closesEarly, sawAnEarlyClose, put, if_pos rfl, Option.any_some]
  have hlong : 0 < distrust := by decide
  exact decide_eq_true (Nat.lt_add_of_pos_right hlong)

/-- **The loop hands out what the scan promises**, and pops what is gone until it does or meets one that settles. -/
theorem reuseLoop_scan {wait : IdleH1 → Nat → Wait} (hlives : ∀ e delay, wait e delay = .lives) (pool : PoolInner K)
    (key : K) (now : Nat) (marks : K → Option Nat) (deque : List IdleH1) :
    (reuseLoop wait pool.idleTimeout key now marks deque).1.isSome =
      scan pool.idleTimeout now (closesEarly marks key now) deque ∧
    ((reuseLoop wait pool.idleTimeout key now marks deque).1 = none →
      (reuseLoop wait pool.idleTimeout key now marks deque).2.2 = deque.dropWhile (gone pool.idleTimeout now) ∧
      ∀ e ∈ (deque.dropWhile (gone pool.idleTimeout now)).head?, e.settling now) := by
  induction deque generalizing marks with
  | nil => exact ⟨rfl, fun _ => ⟨rfl, nofun⟩⟩
  | cons e deque ih =>
    rw [reuseLoop, scan, dropWhile_cons]
    by_cases hheld : (closesEarly marks key now && e.settling now)
    · have hsettling : e.settling now := (Bool.and_eq_true_iff.mp hheld).2
      have hkept : gone pool.idleTimeout now e = false := by
        obtain ⟨hlive, hyoung⟩ := Bool.and_eq_true_iff.mp hsettling
        rw [Bool.not_eq_true'] at hlive
        have hleft : now - e.parkedAt < defaultIdleTimeout := Nat.lt_trans (of_decide_eq_true hyoung) (by decide)
        rw [gone, hlive, Bool.or_false, expired]
        rcases pool.built with hnone | hsome
        · rw [hnone]
          rfl
        · rw [hsome, Option.any_some, idleLeft, if_pos (Nat.le_of_lt hleft), Option.filter_some, if_pos (by simp; omega)]
          rfl
      obtain ⟨hfresh, hlive⟩ := Bool.or_eq_false_iff.mp hkept
      rw [if_pos hheld, hkept, hfresh, hlive, hheld]
      exact ⟨rfl, fun _ => ⟨rfl, fun f hf => Option.some.inj hf ▸ hsettling⟩⟩
    rw [if_neg hheld]
    cases hexpired : expired pool.idleTimeout now e with
    | true =>
      rw [gone, hexpired]
      exact ih marks
    | false =>
      cases hdead : e.isDead with
      | true =>
        rw [gone, hexpired, hdead]
        cases hearly : e.early now with
        | true =>
          have hmarked := ih (sawAnEarlyClose marks key now)
          rw [closesEarly_saw] at hmarked
          rw [Bool.or_true]
          exact hmarked
        | false =>
          rw [Bool.or_false]
          exact ih marks
      | false =>
        have hwait : (freshDelay e.parkedAt now freshGate).elim Wait.lives (wait e) = .lives := by
          cases freshDelay e.parkedAt now freshGate with
          | none => rfl
          | some delay => exact hlives e delay
        rw [Bool.not_eq_true] at hheld
        rw [hwait, hheld]
        exact ⟨rfl, nofun⟩

/-- **What `has_idle` says, a checkout does**: it reuses a connection exactly if `has_idle` is true, and where it gives
    none it has dropped all that is gone in front of the first live entry. -/
theorem hasIdle_iff {wait : IdleH1 → Nat → Wait} (hlives : ∀ e delay, wait e delay = .lives) (pool : PoolInner K)
    (key : Option K) (now : Nat) :
    (hasIdle pool key now = true ↔ ∃ k ∈ key, (checkout wait pool k true now).1.isSome = true) ∧
    ∀ k ∈ key, (reuseH1 wait pool k now).1 = none →
      (reuseH1 wait pool k now).2.idle k = (pool.idle k).dropWhile (gone pool.idleTimeout now) ∧
      ∀ e ∈ ((pool.idle k).dropWhile (gone pool.idleTimeout now)).head?, e.settling now = true := by
  cases key with
  | none => exact ⟨⟨nofun, nofun⟩, nofun⟩
  | some k =>
    obtain ⟨hscan, hleft⟩ := reuseLoop_scan hlives pool k now pool.closesEarly (pool.idle k)
    constructor
    · simp only [Option.mem_some_iff, exists_eq_left', hasIdle, checkout, Bool.true_and]
      cases htimeout : pool.idleTimeout with
      | none => exact ⟨nofun, nofun⟩
      | some timeout =>
        rw [htimeout] at hscan
        cases hh2 : pool.h2 k with
        | none => simp [reuseH2, hh2, reuseH1, htimeout, hscan]
        | some entry => cases hclosed : entry.isClosed <;> simp [reuseH2, hh2, hclosed, reuseH1, htimeout, hscan]
    · intro j hj hnone
      obtain rfl := Option.some.inj hj
      show put pool.idle k _ k = _ ∧ _
      rw [put, if_pos rfl]
      exact hleft hnone

/-- A dead entry that was parked 100 ms ago marks its origin, so that the live one behind it is left to settle. -/
theorem hasIdle_iff_settling :
    let dead : IdleH1 := ⟨0, true, false, false, 0⟩
    let live : IdleH1 := ⟨1, false, false, false, 0⟩
    let pool : PoolInner Unit := ⟨fun _ => [dead, live], fun _ => none, fun _ => none, some defaultIdleTimeout, .inr rfl⟩
    hasIdle pool (some ()) 100000000 = false ∧ (reuseH1 (fun _ _ => .lives) pool () 100000000).2.idle () = [live] := by
  intro dead live pool
  have hagree := @hasIdle_iff _ _ (fun _ _ => .lives) (fun _ _ => rfl) pool (some ()) 100000000
  have hnone : (reuseH1 (fun _ _ => .lives) pool () 100000000).1 = none := by decide +kernel
  refine ⟨Bool.not_eq_true _ ▸ fun hidle => ?_, (hagree.2 () rfl hnone).1⟩
  obtain ⟨⟨⟩, _, hsome⟩ := hagree.1.mp hidle
  exact absurd hsome (by decide +kernel)

end

end Oam.Fetch.Idle
