/-
  The connection pool (`oam_core/src/http_client/pool.rs`), and what `destroy` is worth: a connection that was there when
  a destroy returned is not handed to a checkout that began later.

  The promise is broken (`destroy_is_not_final`): a request in flight reads the generation when its response arrives,
  after the destroy; the park compares it before it locks; and an h2 connection is filed by the dial, which reads no
  generation.  Between its load and its comparison the generation does keep it (`handed_if_careful`).
-/
import Oam.Lib.Trace
import Mathlib.Algebra.Group.Nat.Defs

namespace Oam.Fetch.Pool

open List Trace

/-! ## Data -/

/-- A connection; all but its number are ghosts. -/
structure Conn where
  id : Nat
  /-- The destroys that had returned when its dial began. -/
  born : Nat
  /-- The destroys that had begun when it was dialled, taken out again, or let through to its park. -/
  seen : Nat
deriving DecidableEq

/-- `PoolInner`. The last three fields are ghosts: the destroys that have begun, those that have returned, and the
    threads in one. -/
structure Mem (K : Type) where
  idle : K → List Conn
  h2 : K → Option Conn
  generation : UInt64
  dials : Nat
  begun : Nat
  returned : Nat
  underway : List Nat

/-- A call of `Pool::request`: its key, whether it may take a pooled connection, the attempts left. -/
structure Call (K : Type) where
  key : K
  allowReuse : Bool
  left : Nat

/-- Where a thread is; `began` counts the destroys that had returned when its checkout began. -/
inductive Pc (K : Type) where
  | ready
  -- `Pool::destroy`, before each of its actions
  | bumps
  | clearsIdle
  | clearsH2
  | returns
  -- `Pool::request`
  | starts (call : Call K)
  | looksH2 (call : Call K) (began : Nat)
  | looksH1 (call : Call K) (began : Nat)
  | dials (call : Call K) (began : Nat)
  | dialling (call : Call K) (began : Nat) (conn : Conn)
  | files (call : Call K) (began : Nat) (conn : Conn)
  | sends (call : Call K) (conn : Conn) (isH2 : Bool)
  | succeeds (key : K) (conn : Conn) (shouldPark : Bool)
  -- its background task
  | waits (key : K) (conn : Conn) (shouldPark : Bool) (genId : UInt64)
  | parks (key : K) (conn : Conn)

/-- What a dial negotiates. -/
inductive Proto where
  | h1
  | h2

/-- What a send comes to. -/
inductive SendResult where
  | ok (close : Bool)
  | unsent (reused : Bool)
  | sent

/-- What an action meets: of the h2 sender, of the idle connections, and of a dial and a send. -/
structure Answer where
  closed : Bool
  evicts : Bool
  settling : Bool
  usable : Bool
  dial : Option Proto
  sent : SendResult
  ready : Bool
  drops : Bool

/-- A checkout that began after `began` destroys was handed the connection. -/
structure Handed where
  conn : Conn
  began : Nat
deriving DecidableEq

/-! ## Program -/

section
variable {K : Type} [DecidableEq K]

/-- The map with another entry under `key`. -/
def put {V : Type} (f : K → V) (key : K) (v : V) : K → V := fun k => if k = key then v else f k

/-- `MAX_ATTEMPTS`. -/
def maxAttempts : Nat := 3

/-- `on_failure`: an h2 entry whose connection the failure closed goes. -/
def onFailure (m : Mem K) (key : K) (isH2 : Bool) (a : Answer) : Mem K :=
  if isH2 && a.closed && a.evicts then { m with h2 := put m.h2 key none } else m

/-- The next atomic action of thread `t`. -/
def act (pooling : Bool) (m : Mem K) (t : Nat) (a : Answer) : Pc K → Mem K × Pc K × List Handed
  | .ready => (m, .ready, [])
  | .bumps =>
    ({ m with generation := m.generation + 1, begun := m.begun + 1, underway := t :: m.underway }, .clearsIdle, [])
  | .clearsIdle => ({ m with idle := fun _ => [] }, .clearsH2, [])
  | .clearsH2 => ({ m with h2 := fun _ => none }, .returns, [])
  | .returns => ({ m with returned := m.returned + 1, underway := m.underway.filter (· ≠ t) }, .ready, [])
  | .starts call =>
    match call.left with
    | 0 => (m, .ready, [])
    | left + 1 =>
      let call := { call with left }
      if call.allowReuse && pooling then (m, .looksH2 call m.returned, []) else (m, .dials call m.returned, [])
  | .looksH2 call began =>
    match m.h2 call.key with
    | none => (m, .looksH1 call began, [])
    | some conn =>
      if a.closed then ({ m with h2 := put m.h2 call.key none }, .looksH1 call began, [])
      else (m, .sends call conn true, [⟨conn, began⟩])
  | .looksH1 call began =>
    match m.idle call.key with
    | [] => (m, .dials call began, [])
    | conn :: rest =>
      if a.settling then (m, .dials call began, [])
      else
        let m := { m with idle := put m.idle call.key rest }
        let conn := { conn with seen := m.begun }
        if a.usable then (m, .sends call conn false, [⟨conn, began⟩]) else (m, .looksH1 call began, [])
  | .dials call began =>
    ({ m with dials := m.dials + 1 }, .dialling call began ⟨m.dials, m.returned, m.begun⟩, [])
  | .dialling call began conn =>
    match a.dial with
    | none => (m, .ready, [])
    | some .h1 => (m, .sends call conn false, [⟨conn, began⟩])
    | some .h2 => (m, .files call began conn, [])
  -- The dial itself files an h2 connection, whatever the generation.
  | .files call began conn => ({ m with h2 := put m.h2 call.key (some conn) }, .sends call conn true, [⟨conn, began⟩])
  | .sends call conn isH2 =>
    match a.sent with
    | .ok close => (m, if isH2 then .ready else .succeeds call.key conn (!close), [])
    | .sent => (onFailure m call.key isH2 a, .ready, [])
    | .unsent reused =>
      (onFailure m call.key isH2 a,
        if reused && call.allowReuse then .starts { call with allowReuse := false } else .ready, [])
  -- The generation is read here, once the response is in.
  | .succeeds key conn shouldPark => (m, .waits key conn shouldPark m.generation, [])
  | .waits key conn shouldPark genId =>
    (m, if a.ready && shouldPark && m.generation = genId then .parks key { conn with seen := m.begun } else .ready, [])
  | .parks key conn =>
    if a.drops then (m, .ready, []) else ({ m with idle := put m.idle key (m.idle key ++ [conn]) }, .ready, [])

/-- The memory, and where each thread is. -/
structure State (K : Type) where
  mem : Mem K
  pc : Nat → Pc K

/-- An empty pool, and no call. -/
def start : State K where
  mem :=
    { idle := fun _ => [], h2 := fun _ => none, generation := 0, dials := 0, begun := 0, returned := 0, underway := [] }
  pc := fun _ => .ready

/-- A thread that is ready calls; any other takes its next action.  `pinned`: the call holds a hook's answer. -/
inductive Input (K : Type) where
  | request (t : Nat) (key : K) (pinned : Bool)
  | destroy (t : Nat)
  | go (t : Nat) (a : Answer)

/-- No call is under way. -/
def Pc.isReady : Pc K → Bool
  | ready => true
  | _ => false

/-- Thread `t` is elsewhere. -/
def State.setPc (s : State K) (t : Nat) (pc : Pc K) : State K := { s with pc := fun u => if u = t then pc else s.pc u }

/-- One atomic action of one thread, or a new call. -/
def step (pooling : Bool) (s : State K) : Input K → State K × List Handed
  | .request t key pinned =>
    (if (s.pc t).isReady then s.setPc t (.starts { key, allowReuse := !pinned, left := maxAttempts }) else s, [])
  | .destroy t => (if (s.pc t).isReady then s.setPc t .bumps else s, [])
  | .go t a =>
    let next := act pooling s.mem t a (s.pc t)
    ({ s with mem := next.1 }.setPc t next.2.1, next.2.2)

/-! ## Specification -/

/-- The connection's dial began after the last destroy that had returned when the checkout began. -/
def Handed.kept (h : Handed) : Bool := h.began ≤ h.conn.born

/-- What the generation does NOT see: a destroy under way at a dial or a take, one that begins between a take and the
    load, between the comparison and the park's lock, or before a dialled h2 connection is filed. -/
def cares (m : Mem K) (a : Answer) : Pc K → Bool
  | .bumps => m.begun + 1 < 2 ^ 64
  | .dials _ _ => m.underway.isEmpty
  | .looksH1 call _ => (m.idle call.key).isEmpty || a.settling || !a.usable || m.underway.isEmpty
  | .succeeds _ conn _ | .files _ _ conn => conn.seen = m.begun
  | .parks _ conn => a.drops || conn.seen = m.begun
  | _ => true

/-- The condition on a step. -/
def careful (s : State K) : Input K → Bool
  | .go t a => cares s.mem a (s.pc t)
  | _ => true

/-! ## Correctness -/

/-- Whatever is pooled was dialled after the last destroy that returned, and the generation counts the destroys. -/
structure Settled (m : Mem K) : Prop where
  stamp : m.generation = UInt64.ofNat m.begun
  few : m.begun < 2 ^ 64
  idle : ∀ key, ∀ conn ∈ m.idle key, conn.born = m.returned
  h2 : ∀ key conn, m.h2 key = some conn → conn.born = m.returned

/-- If no destroy has begun since the connection was seen, none is under way and none has returned since its dial. -/
def Fresh (m : Mem K) (conn : Conn) : Prop :=
  conn.seen ≤ m.begun ∧ (conn.seen = m.begun → conn.born = m.returned ∧ m.underway = [])

/-- What thread `t` knows at its counter. -/
def Knows (m : Mem K) (t : Nat) : Pc K → Prop
  | .clearsIdle => t ∈ m.underway
  | .clearsH2 => t ∈ m.underway ∧ ∀ key, m.idle key = []
  | .returns => t ∈ m.underway ∧ (∀ key, m.idle key = []) ∧ ∀ key, m.h2 key = none
  | .looksH2 _ began | .looksH1 _ began | .dials _ began => began ≤ m.returned
  | .dialling _ began conn | .files _ began conn => began ≤ conn.born ∧ Fresh m conn
  | .sends _ conn isH2 => isH2 = false → Fresh m conn
  | .succeeds _ conn _ | .parks _ conn => Fresh m conn
  | .waits _ conn _ genId => Fresh m conn ∧ genId = UInt64.ofNat conn.seen
  | _ => True

/-- What the actions of thread `t` do to the others: while a destroy is under way nothing is filed. -/
structure Rely (t : Nat) (m m' : Mem K) : Prop where
  underway : ∀ u, u ≠ t → u ∈ m.underway → u ∈ m'.underway
  begun : m.begun ≤ m'.begun
  returned : m.returned ≤ m'.returned
  calm : m'.begun = m.begun → m.underway = [] → m'.returned = m.returned ∧ m'.underway = []
  idle : m.underway ≠ [] → ∀ key, m.idle key = [] → m'.idle key = []
  h2 : m.underway ≠ [] → ∀ key, m.h2 key = none → m'.h2 key = none

omit [DecidableEq K] in
theorem Rely.refl (t : Nat) (m : Mem K) : Rely t m m :=
  ⟨fun _ _ h => h, Nat.le_refl _, Nat.le_refl _, fun _ h => ⟨rfl, h⟩, fun _ _ h => h, fun _ _ h => h⟩

omit [DecidableEq K] in
theorem Fresh.stable {t : Nat} {m m' : Mem K} {conn : Conn} (h : Fresh m conn) (hr : Rely t m m') : Fresh m' conn := by
  refine ⟨Nat.le_trans h.1 hr.begun, fun hseen => ?_⟩
  have hsame : m'.begun = m.begun := Nat.le_antisymm (hseen ▸ h.1) hr.begun
  obtain ⟨hborn, hnone⟩ := h.2 (hseen.trans hsame)
  obtain ⟨hreturned, hnone⟩ := hr.calm hsame hnone
  exact ⟨hborn.trans hreturned.symm, hnone⟩

variable {pc : Pc K}

omit [DecidableEq K] in
theorem Knows.stable {t u : Nat} {m m' : Mem K} (h : Knows m u pc) (hu : u ≠ t) (hr : Rely t m m') : Knows m' u pc := by
  cases pc with
  | clearsIdle => exact hr.underway u hu h
  | clearsH2 =>
    obtain ⟨hin, hidle⟩ := h
    exact ⟨hr.underway u hu hin, fun key => hr.idle (ne_nil_of_mem hin) key (hidle key)⟩
  | returns =>
    obtain ⟨hin, hidle, hh2⟩ := h
    exact ⟨hr.underway u hu hin, fun key => hr.idle (ne_nil_of_mem hin) key (hidle key),
      fun key => hr.h2 (ne_nil_of_mem hin) key (hh2 key)⟩
  | looksH2 | looksH1 | dials => exact Nat.le_trans h hr.returned
  | dialling | files => exact ⟨h.1, h.2.stable hr⟩
  | sends => exact fun hh1 => (h hh1).stable hr
  | succeeds | parks => exact h.stable hr
  | waits => exact ⟨h.1.stable hr, h.2⟩
  | _ => trivial

/-- What one action of thread `t` keeps. -/
structure Keeps (t : Nat) (m : Mem K) (next : Mem K × Pc K × List Handed) : Prop where
  rely : Rely t m next.1
  settled : Settled next.1
  knows : Knows next.1 t next.2.1
  handed : ∀ h ∈ next.2.2, h.kept = true

omit [DecidableEq K] in
theorem Keeps.same {t : Nat} {m : Mem K} (h : Settled m) (hknows : Knows m t pc) : Keeps t m (m, pc, []) :=
  ⟨.refl t m, h, hknows, nofun⟩

theorem kept_singleton {conn : Conn} {began : Nat} (h : began ≤ conn.born) :
    ∀ x ∈ [(⟨conn, began⟩ : Handed)], x.kept := fun x hx => by
  rw [mem_singleton.mp hx]
  exact decide_eq_true h

omit [DecidableEq K] in
theorem Rely.ofIdle {t : Nat} {m : Mem K} {idle : K → List Conn}
    (h : m.underway ≠ [] → ∀ key, m.idle key = [] → idle key = []) : Rely t m { m with idle } :=
  ⟨fun _ _ h => h, Nat.le_refl _, Nat.le_refl _, fun _ h => ⟨rfl, h⟩, h, fun _ _ h => h⟩

omit [DecidableEq K] in
theorem Rely.ofH2 {t : Nat} {m : Mem K} {h2 : K → Option Conn}
    (h : m.underway ≠ [] → ∀ key, m.h2 key = none → h2 key = none) : Rely t m { m with h2 } :=
  ⟨fun _ _ h => h, Nat.le_refl _, Nat.le_refl _, fun _ h => ⟨rfl, h⟩, fun _ _ h => h, h⟩

theorem Settled.putIdle {m : Mem K} (h : Settled m) {key : K} {conns : List Conn}
    (hconns : ∀ conn ∈ conns, conn.born = m.returned) : Settled { m with idle := put m.idle key conns } := by
  refine ⟨h.stamp, h.few, fun k x hx => ?_, h.h2⟩
  have hx : x ∈ (if k = key then conns else m.idle k) := hx
  split at hx
  · exact hconns x hx
  · exact h.idle k x hx

theorem Settled.putH2 {m : Mem K} (h : Settled m) {key : K} {entry : Option Conn}
    (hentry : ∀ conn, entry = some conn → conn.born = m.returned) : Settled { m with h2 := put m.h2 key entry } := by
  refine ⟨h.stamp, h.few, h.idle, fun k x hx => ?_⟩
  have hx : (if k = key then entry else m.h2 k) = some x := hx
  split at hx
  · exact hentry x hx
  · exact h.h2 k x hx

theorem dropH2 {m : Mem K} (h : Settled m) (t : Nat) (key : K) :
    Rely t m { m with h2 := put m.h2 key none } ∧ Settled { m with h2 := put m.h2 key none } := by
  refine ⟨.ofH2 fun _ k hk => ?_, h.putH2 nofun⟩
  show (if k = key then none else m.h2 k) = none
  rw [hk, ite_self]

theorem act_looksH1 {m : Mem K} (h : Settled m) (pooling : Bool) (t : Nat) (a : Answer) (call : Call K) {began : Nat}
    (hbegan : began ≤ m.returned) (hok : cares m a (.looksH1 call began)) : Keeps t m (act pooling m t a (.looksH1 call began)) := by
  rw [act]
  split
  · exact .same h hbegan
  next conn rest hidle =>
  split
  · exact .same h hbegan
  have hborn : conn.born = m.returned := h.idle call.key conn (by simp [hidle])
  have hsettled : Settled { m with idle := put m.idle call.key rest } :=
    h.putIdle fun x hx => h.idle call.key x (by simp [hidle, hx])
  have hrely : Rely t m { m with idle := put m.idle call.key rest } := by
    refine .ofIdle fun _ key hkey => ?_
    show (if key = call.key then rest else m.idle key) = []
    split
    · next heq =>
      rw [heq, hidle] at hkey
      cases hkey
    · exact hkey
  simp only
  split
  · next hsettling husable =>
    have hnone : m.underway = [] := by simpa [cares, hidle, hsettling, husable] using hok
    exact ⟨hrely, hsettled, fun _ => ⟨Nat.le_refl _, fun _ => ⟨hborn, hnone⟩⟩, kept_singleton (hborn ▸ hbegan)⟩
  · exact ⟨hrely, hsettled, hbegan, nofun⟩

omit [DecidableEq K] in
/-- **What the stamp is for**: where the generation is still the one that was loaded, no destroy has begun since. -/
theorem Fresh.of_generation {m : Mem K} {conn : Conn} (h : Fresh m conn) (hs : Settled m)
    (hgen : m.generation = UInt64.ofNat conn.seen) : conn.born = m.returned ∧ m.underway = [] := by
  refine h.2 ?_
  have hnat := congrArg UInt64.toNat (hs.stamp.symm.trans hgen)
  rw [UInt64.toNat_ofNat_of_lt' hs.few, UInt64.toNat_ofNat_of_lt' (Nat.lt_of_le_of_lt h.1 hs.few)] at hnat
  exact hnat.symm

/-- **One action.**  Each kind of action is looked at once. -/
theorem act_keeps {m : Mem K} (pooling : Bool) {t : Nat} {a : Answer} (h : Settled m)
    (hknows : Knows m t pc) (hok : cares m a pc) : Keeps t m (act pooling m t a pc) := by
  cases pc with
  | ready => exact .same h trivial
  | bumps =>
    refine ⟨⟨fun u _ hu => mem_cons_of_mem _ hu, Nat.le_succ _, Nat.le_refl _, fun h => absurd h (Nat.succ_ne_self _),
      fun _ _ h => h, fun _ _ h => h⟩, ⟨?_, of_decide_eq_true hok, h.idle, h.h2⟩, mem_cons_self, nofun⟩
    show m.generation + 1 = UInt64.ofNat (m.begun + 1)
    rw [h.stamp, UInt64.ofNat_add]
    rfl
  | clearsIdle =>
    exact ⟨.ofIdle fun _ _ _ => rfl, ⟨h.stamp, h.few, nofun, h.h2⟩, ⟨hknows, fun _ => rfl⟩, nofun⟩
  | clearsH2 =>
    exact ⟨.ofH2 fun _ _ _ => rfl, ⟨h.stamp, h.few, h.idle, nofun⟩, ⟨hknows.1, hknows.2, fun _ => rfl⟩, nofun⟩
  | returns =>
    -- Nothing is pooled when a destroy returns.
    obtain ⟨hin, hidle, hh2⟩ := hknows
    refine ⟨⟨fun u hu hmem => ?_, Nat.le_refl _, Nat.le_succ _, fun _ hnone => absurd hnone (ne_nil_of_mem hin),
      fun _ _ h => h, fun _ _ h => h⟩, ⟨h.stamp, h.few, fun key conn hmem => ?_, fun key conn hsome => ?_⟩, trivial,
      nofun⟩
    · exact mem_filter.mpr ⟨hmem, by simpa using hu⟩
    · have hmem : conn ∈ m.idle key := hmem
      rw [hidle key] at hmem
      cases hmem
    · have hsome : m.h2 key = some conn := hsome
      rw [hh2 key] at hsome
      cases hsome
  | starts =>
    rw [act]
    split
    · exact .same h trivial
    · simp only
      split
      · exact .same h (Nat.le_refl _)
      · exact .same h (Nat.le_refl _)
  | looksH2 call =>
    rw [act]
    split
    · exact .same h hknows
    next conn hconn =>
    split
    · obtain ⟨hrely, hsettled⟩ := dropH2 h t call.key
      exact ⟨hrely, hsettled, hknows, nofun⟩
    · have hborn : conn.born = m.returned := h.h2 call.key conn hconn
      exact ⟨.refl t m, h, nofun, kept_singleton (hborn ▸ hknows)⟩
  | looksH1 call =>
    exact act_looksH1 h pooling t a call hknows hok
  | dials =>
    have hnone : m.underway = [] := List.isEmpty_iff.mp hok
    exact ⟨⟨fun _ _ h => h, Nat.le_refl _, Nat.le_refl _, fun _ h => ⟨rfl, h⟩, fun _ _ h => h, fun _ _ h => h⟩,
      ⟨h.stamp, h.few, h.idle, h.h2⟩, ⟨hknows, Nat.le_refl _, fun _ => ⟨rfl, hnone⟩⟩, nofun⟩
  | dialling =>
    rw [act]
    split
    · exact .same h trivial
    · exact ⟨.refl t m, h, fun _ => hknows.2, kept_singleton hknows.1⟩
    · exact .same h hknows
  | files call began conn =>
    obtain ⟨hborn, hnone⟩ := hknows.2.2 (of_decide_eq_true hok)
    exact ⟨.ofH2 fun hin => absurd hnone hin, h.putH2 fun x hx => Option.some.inj hx ▸ hborn, nofun,
      kept_singleton hknows.1⟩
  | sends call conn isH2 =>
    rw [act]
    obtain ⟨hrely, hsettled⟩ : Rely t m (onFailure m call.key isH2 a) ∧ Settled (onFailure m call.key isH2 a) := by
      unfold onFailure
      split
      · exact dropH2 h t call.key
      · exact ⟨.refl t m, h⟩
    split
    · refine .same h ?_
      split
      · trivial
      · next hh1 => exact hknows (Bool.eq_false_iff.mpr hh1)
    · exact ⟨hrely, hsettled, trivial, nofun⟩
    · refine ⟨hrely, hsettled, ?_, nofun⟩
      simp only
      split <;> trivial
  | succeeds key conn =>
    have hseen : conn.seen = m.begun := of_decide_eq_true hok
    exact .same h ⟨hknows, hseen ▸ h.stamp⟩
  | waits key conn shouldPark genId =>
    refine .same h ?_
    split
    · next hparks =>
      simp only [Bool.and_eq_true, decide_eq_true_eq] at hparks
      exact ⟨Nat.le_refl _, fun _ => hknows.1.of_generation h (hparks.2.trans hknows.2)⟩
    · trivial
  | parks key conn =>
    rw [act]
    split
    · exact .same h trivial
    next hdrops =>
    have hseen : (a.drops || decide (conn.seen = m.begun)) := hok
    rw [Bool.eq_false_iff.mpr hdrops, Bool.false_or] at hseen
    obtain ⟨hborn, hnone⟩ := hknows.2 (of_decide_eq_true hseen)
    refine ⟨.ofIdle fun hin => absurd hnone hin, h.putIdle fun x hx => ?_, trivial, nofun⟩
    rcases mem_append.mp hx with hx | hx
    · exact h.idle key x hx
    · rw [mem_singleton.mp hx]
      exact hborn

/-- **The invariant.** -/
structure Undestroyed (s : State K) (log : List Handed) : Prop where
  settled : Settled s.mem
  knows : ∀ t, Knows s.mem t (s.pc t)
  kept : ∀ h ∈ log, h.kept = true

omit [DecidableEq K] in
theorem Undestroyed.call {s : State K} {log : List Handed} (h : Undestroyed s log) (t : Nat)
    (hpc : Knows s.mem t pc) : Undestroyed (if (s.pc t).isReady then s.setPc t pc else s) log := by
  split
  · refine ⟨h.settled, fun u => ?_, h.kept⟩
    show Knows s.mem u (if u = t then pc else s.pc u)
    split
    · next hu => exact hu ▸ hpc
    · exact h.knows u
  · exact h

theorem step_undestroyed {pooling : Bool} {s : State K} {log : List Handed} {input : Input K}
    (hok : careful s input) (h : Undestroyed s log) :
    Undestroyed (step pooling s input).1 (log ++ (step pooling s input).2) := by
  cases input with
  | request t =>
    rw [step, append_nil]
    exact h.call t trivial
  | destroy t =>
    rw [step, append_nil]
    exact h.call t trivial
  | go t =>
    have hkeeps := act_keeps pooling h.settled (h.knows t) hok
    refine ⟨hkeeps.settled, fun u => ?_, fun x hx => ?_⟩
    · show Knows _ u (if u = t then _ else s.pc u)
      split
      · next hu => exact hu ▸ hkeeps.knows
      · next hu => exact (h.knows u).stable hu hkeeps.rely
    · rcases mem_append.mp hx with hx | hx
      · exact h.kept x hx
      · exact hkeeps.handed x hx

/-- **A destroy is final, wherever the generation can see it.** If all steps are careful, no checkout is handed a
    connection whose dial began before a destroy returned that the checkout began after. -/
theorem handed_if_careful (pooling : Bool) {inputs : List (Input K)}
    (h : Along (step pooling) careful start inputs) : ∀ x ∈ (run (step pooling) start inputs).2, x.kept = true := by
  have hstart : Undestroyed (start : State K) [] :=
    ⟨⟨rfl, Nat.two_pow_pos 64, nofun, nofun⟩, fun _ => trivial, nofun⟩
  have hrun := run_invariant_along (fun _ _ _ hok hs => step_undestroyed hok hs) hstart h
  exact fun x hx => hrun.kept x hx

end

/-! ## Runs -/

/-- A network where every dial gives a connection of this kind, every send is answered and every connection stays
    open. -/
def answers (proto : Proto) : Answer :=
  { closed := false, evicts := false, settling := false, usable := true, dial := some proto, sent := .ok false,
    ready := true, drops := false }

/-- Thread `t` takes `n` actions. -/
def goes (proto : Proto) (t n : Nat) : List (Input Unit) := List.replicate n (.go t (answers proto))

/-- A whole destroy. -/
def destroyed (t : Nat) : List (Input Unit) := .destroy t :: goes .h1 t 4

/-- A later request, up to its dial. -/
def asksAgain : List (Input Unit) := .request 2 () false :: goes .h1 2 3

/-- Connection 0, dialled before a destroy returned, is handed to a request that began after it: by each of the three
    gaps. -/
theorem destroy_is_not_final : ((run (step true) start
      (.request 0 () false :: goes .h1 0 5 ++ destroyed 1 ++ goes .h1 0 4 ++ asksAgain)).2 =
        [⟨⟨0, 0, 0⟩, 0⟩, ⟨⟨0, 0, 1⟩, 1⟩]) ∧
    ((run (step true) start
      (.request 0 () false :: goes .h1 0 8 ++ destroyed 1 ++ goes .h1 0 1 ++ asksAgain)).2 =
        [⟨⟨0, 0, 0⟩, 0⟩, ⟨⟨0, 0, 1⟩, 1⟩]) ∧
    (run (step true) start
      (.request 0 () false :: goes .h2 0 4 ++ destroyed 1 ++ goes .h2 0 2 ++ asksAgain)).2 =
        [⟨⟨0, 0, 0⟩, 0⟩, ⟨⟨0, 0, 0⟩, 1⟩] := by
  decide +kernel

/-- A destroy comes when the first of two requests is parked and the second has loaded the generation. -/
def destroyedBetween : List (Input Unit) :=
  .request 0 () false :: goes .h1 0 7 ++ .request 3 () false :: goes .h1 3 7 ++ goes .h1 0 2 ++ destroyed 1 ++
    goes .h1 3 2 ++ asksAgain ++ goes .h1 2 2

theorem handed_if_careful_between : (run (step true) start destroyedBetween).2 =
      [⟨⟨0, 0, 0⟩, 0⟩, ⟨⟨1, 0, 0⟩, 0⟩, ⟨⟨2, 1, 1⟩, 1⟩] ∧
    ∀ x ∈ (run (step true) start destroyedBetween).2, x.kept = true :=
  ⟨by decide +kernel, handed_if_careful true (by decide +kernel)⟩

end Oam.Fetch.Pool
