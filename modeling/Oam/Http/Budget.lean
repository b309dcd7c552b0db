/-
  The budget of request body bytes that all requests of a server share (`http_server.rs`).  A charge is added FIRST and
  checked AFTER, in two steps: others may run in between.
-/
import Oam.Lib.Ledger
import Oam.Lib.Text

namespace Oam.Http.Budget

open Text Ledger

/-! ## Chunks, guards and the tasks that make them -/

/-- `len` is kept beside the bytes: `into_data` moves them out, and the drop still has to refund the size. -/
structure BudgetedChunk where
  data : List UInt8
  len : Nat
  len_eq : len = data.length
deriving DecidableEq, Repr

def BudgetedChunk.new (data : List UInt8) : BudgetedChunk := ⟨data, data.length, rfl⟩

/-- `Drop for BudgetedChunk`. -/
def BudgetedChunk.drop (chunk : BudgetedChunk) (bodyBytes : Int) : Int := bodyBytes - chunk.len

inductive BodyChunk where
  | ok (chunk : BudgetedChunk)
  | err (failure : Str)
deriving DecidableEq, Repr

def BodyChunk.len : BodyChunk → Nat
  | .ok chunk => chunk.len
  | .err _ => 0

def BodyChunk.drop (item : BodyChunk) (bodyBytes : Int) : Int :=
  match item with
  | .ok chunk => chunk.drop bodyBytes
  | .err _ => bodyBytes

/-- `Drop for RequestGuard`, its refund. -/
def dropGuard (reserved : Nat) (bodyBytes : Int) : Int := if reserved > 0 then bodyBytes - reserved else bodyBytes

/-- How far `pump_request_body` is. -/
inductive Pump where
  /-- Waits for a frame. -/
  | reading (total : Nat)
  /-- The frame's length is added; `prev` is what `fetch_add` returned. -/
  | charged (total : Nat) (data : List UInt8) (prev : Int)
  /-- Waits for room in the channel, with the chunk. -/
  | sending (total : Nat) (chunk : BudgetedChunk)
  /-- Waits for room in the channel, with the failure it ends on. -/
  | failing (failure : Str)
  | over
deriving DecidableEq, Repr

/-- A request that has its `RequestGuard`. -/
structure Exchange where
  /-- The guard's `reserved`, while it is alive. -/
  guarded : Option Nat
  pump : Pump
  /-- The channel's queue, and whether its receiver is still somewhere. -/
  queue : List BodyChunk
  receiver : Bool
  /-- Chunks that reads have received. -/
  hand : List BudgetedChunk
deriving DecidableEq, Repr

/-- How far `dispatch_request` is. -/
inductive Request where
  | collecting (streamed : Bool)
  /-- The body's length is added; `prev` is what `fetch_add` returned. -/
  | reserved (streamed : Bool) (collected : List UInt8) (prev : Int)
  /-- It ended before there was a guard, with the answer it made up itself, if it did. -/
  | refused (answer : Option (Nat × Str))
  | served (x : Exchange)
deriving DecidableEq, Repr

/-- What `collect_body` comes to. -/
inductive Collected where
  | whole (bytes : List UInt8)
  | tooLarge
  | refused (status : Nat)
  | gone
deriving DecidableEq, Repr

/-- What `body.frame()` comes to. -/
inductive Frame where
  | data (bytes : List UInt8)
  | trailers
  | failed (failure : Str)
  | finished
deriving DecidableEq, Repr

/-- What can happen to one exchange. -/
inductive Act where
  | collected (result : Collected)
  | checkReservation
  /-- The future of `dispatch_request` is over: answered, the handler gone, or dropped with the connection. -/
  | dispatchEnds
  | frame (f : Frame)
  | checkCharge
  /-- The channel lets the awaited send through. -/
  | sent
  /-- The pump's task is dropped at an await. -/
  | pumpDropped
  | recv
  | intoData (i : Nat)
  /-- The receiver is dropped: cancelled, dumped, or with its registry entry. -/
  | close
  /-- The channel without a receiver drops the chunk at its head. -/
  | dropQueued
deriving DecidableEq, Repr

/-! ## The steps -/

def maxRequestBody : Nat := 100 * 1024 * 1024

/-- The room of `mpsc::channel`. -/
def capacity : Nat := 8

/-- `fetch_add` of the collected length. -/
def reserve (bodyBytes : Int) (streamed : Bool) (collected : List UInt8) : Int × Request :=
  (bodyBytes + collected.length, .reserved streamed collected bodyBytes)

/-- Nothing of a streamed body is collected. -/
def collected (bodyBytes : Int) (streamed : Bool) (result : Collected) : Int × Request :=
  if streamed then reserve bodyBytes true []
  else
    match result with
    | .whole bytes => reserve bodyBytes false bytes
    | .tooLarge => (bodyBytes, .refused (some (413, "request body too large".toList)))
    | .refused status => (bodyBytes, .refused (some (status, [])))
    | .gone => (bodyBytes, .refused none)

/-- The look at what `fetch_add` returned, and the guard. -/
def checkReservation (budget : Nat) (bodyBytes : Int) (streamed : Bool) (collected : List UInt8) (prev : Int) :
    Int × Request :=
  if prev + collected.length > budget then
    (bodyBytes - collected.length, .refused (some (503, "server is busy".toList)))
  else
    (bodyBytes, .served
      { guarded := some collected.length
        pump := if streamed then .reading 0 else .over
        queue := [], receiver := streamed, hand := [] })

/-- `pump_request_body`, from a frame to the next await or `fetch_add`. -/
def takeFrame (bodyBytes : Int) (total : Nat) : Frame → Int × Pump
  | .data bytes =>
    if total + bytes.length > maxRequestBody then (bodyBytes, .failing "request body too large".toList)
    else (bodyBytes + bytes.length, .charged (total + bytes.length) bytes bodyBytes)
  | .trailers => (bodyBytes, .reading total)
  | .failed failure => (bodyBytes, .failing failure)
  | .finished => (bodyBytes, .over)

def checkCharge (budget : Nat) (bodyBytes : Int) (total : Nat) (data : List UInt8) (prev : Int) : Int × Pump :=
  if prev + data.length > budget then (bodyBytes - data.length, .failing "server is busy".toList)
  else (bodyBytes, .sending total (.new data))

/-- The awaited send.  Without a receiver it fails, and what it carried is dropped. -/
def sent (bodyBytes : Int) (x : Exchange) : Int × Exchange :=
  match x.pump with
  | .sending total chunk =>
    if !x.receiver then (chunk.drop bodyBytes, { x with pump := .over })
    else if x.queue.length < capacity then
      (bodyBytes, { x with pump := .reading total, queue := x.queue ++ [.ok chunk] })
    else (bodyBytes, x)
  | .failing failure =>
    if !x.receiver then (bodyBytes, { x with pump := .over })
    else if x.queue.length < capacity then
      (bodyBytes, { x with pump := .over, queue := x.queue ++ [.err failure] })
    else (bodyBytes, x)
  | _ => (bodyBytes, x)

/-- A dropped task drops what it holds.  It can only be dropped at an await: not between a charge and its check. -/
def pumpDropped (bodyBytes : Int) : Pump → Int × Pump
  | .sending _ chunk => (chunk.drop bodyBytes, .over)
  | .charged total data prev => (bodyBytes, .charged total data prev)
  | _ => (bodyBytes, .over)

/-- `rx.recv()` of a read: a chunk, a failure (the receiver goes with it), or the end once the sender is gone. -/
def recv (x : Exchange) : Exchange :=
  if !x.receiver then x
  else
    match x.queue with
    | .ok chunk :: queue => { x with queue := queue, hand := chunk :: x.hand }
    | .err _ :: queue => { x with queue := queue, receiver := false }
    | [] => if x.pump = .over then { x with receiver := false } else x

/-- `into_data`: the reader has the bytes, the husk is dropped. -/
def intoData (bodyBytes : Int) (x : Exchange) (i : Nat) : Int × Exchange :=
  match x.hand[i]? with
  | some chunk => (chunk.drop bodyBytes, { x with hand := x.hand.eraseIdx i })
  | none => (bodyBytes, x)

def dropQueued (bodyBytes : Int) (x : Exchange) : Int × Exchange :=
  match x.receiver, x.queue with
  | false, item :: queue => (item.drop bodyBytes, { x with queue := queue })
  | _, _ => (bodyBytes, x)

def dispatchEnds (bodyBytes : Int) (x : Exchange) : Int × Exchange :=
  match x.guarded with
  | some reserved => (dropGuard reserved bodyBytes, { x with guarded := none })
  | none => (bodyBytes, x)

def Exchange.withPump (x : Exchange) (p : Int × Pump) : Int × Exchange := (p.1, { x with pump := p.2 })

/-- What an action does to the shared counter and to its exchange. -/
def exchangeAct (budget : Nat) (bodyBytes : Int) (x : Exchange) : Act → Int × Exchange
  | .dispatchEnds => dispatchEnds bodyBytes x
  | .frame f =>
    match x.pump with
    | .reading total => x.withPump (takeFrame bodyBytes total f)
    | _ => (bodyBytes, x)
  | .checkCharge =>
    match x.pump with
    | .charged total data prev => x.withPump (checkCharge budget bodyBytes total data prev)
    | _ => (bodyBytes, x)
  | .sent => sent bodyBytes x
  | .pumpDropped => x.withPump (pumpDropped bodyBytes x.pump)
  | .recv => (bodyBytes, recv x)
  | .intoData i => intoData bodyBytes x i
  | .close => (bodyBytes, { x with receiver := false })
  | .dropQueued => dropQueued bodyBytes x
  | .collected _ | .checkReservation => (bodyBytes, x)

/-- A step that cannot be taken there changes nothing. -/
def act (budget : Nat) (bodyBytes : Int) : Request → Act → Int × Request
  | .collecting streamed, .collected result => collected bodyBytes streamed result
  | .collecting _, .dispatchEnds => (bodyBytes, .refused none)
  | .reserved streamed body prev, .checkReservation => checkReservation budget bodyBytes streamed body prev
  | .served x, a => ((exchangeAct budget bodyBytes x a).1, .served (exchangeAct budget bodyBytes x a).2)
  | r, _ => (bodyBytes, r)

/-- `body_bytes` and the requests, in the order they came. The counter has no bounds here. -/
abbrev Server := Book Request

/-- Any requests, streamed or buffered, and any interleaving of their steps. -/
def run (budget : Nat) (moves : List (Move Bool Act)) : Server :=
  Ledger.run Request.collecting (act budget) ⟨0, []⟩ moves

/-! ## What is live -/

def Pump.chunkBytes : Pump → Nat
  | .sending _ chunk => chunk.len
  | _ => 0

def Pump.inProgress : Pump → Nat
  | .charged _ data _ => data.length
  | _ => 0

/-- The live `BudgetedChunk`s: with the pump, in the channel, with reads. -/
def Request.chunkBytes : Request → Nat
  | .served x => x.pump.chunkBytes + total BodyChunk.len x.queue + total BudgetedChunk.len x.hand
  | _ => 0

def Request.guardBytes : Request → Nat
  | .served x => x.guarded.getD 0
  | _ => 0

def Request.inProgress : Request → Nat
  | .reserved _ collected _ => collected.length
  | .served x => x.pump.inProgress
  | _ => 0

/-- Neither task runs, and the channel and the reads have no chunk. -/
def Request.gone : Request → Bool
  | .refused _ => true
  | .served x => x.guarded.isNone && decide (x.pump = .over) && x.queue.isEmpty && x.hand.isEmpty
  | _ => false

def Request.drawn (r : Request) : Nat := r.chunkBytes + r.guardBytes + r.inProgress

def Pump.passing (budget : Nat) : Pump → Nat
  | .charged _ data prev => if prev + data.length > budget then 0 else data.length
  | _ => 0

def Request.passing (budget : Nat) : Request → Nat
  | .reserved _ collected prev => if prev + collected.length > budget then 0 else collected.length
  | .served x => x.pump.passing budget
  | _ => 0

def Request.keeps (budget : Nat) (r : Request) : Nat := r.chunkBytes + r.guardBytes + r.passing budget

open Request

theorem Pump.passing_le (budget : Nat) (p : Pump) : p.passing budget ≤ p.inProgress := by
  cases p with
  | charged =>
    rw [Pump.passing, Pump.inProgress]
    split <;> omega
  | _ => exact Nat.le_refl 0

theorem Request.keeps_le_drawn (budget : Nat) (r : Request) : r.keeps budget ≤ r.drawn := by
  have hpassing : r.passing budget ≤ r.inProgress := by
    cases r with
    | reserved =>
      rw [passing, inProgress]
      split <;> omega
    | served x => exact x.pump.passing_le budget
    | _ => exact Nat.le_refl 0
  exact Nat.add_le_add_left hpassing _

/-! ## Every step books what it charges -/

/-- The counter moves with what the request has drawn, which keeps more only while the counter is within the budget. -/
structure Booked (budget : Nat) (c : Int) (r : Request) (after : Int × Request) : Prop where
  exact : after.1 + r.drawn = c + after.2.drawn
  within : after.2.keeps budget ≤ r.keeps budget ∨ after.1 ≤ budget

variable {budget : Nat} {c : Int}

theorem booked_of_same {r r' : Request} (hdrawn : r'.drawn = r.drawn := by rfl)
    (hkeeps : r'.keeps budget ≤ r.keeps budget := by exact Nat.le_refl _) : Booked budget c r (c, r') :=
  ⟨by rw [hdrawn], .inl hkeeps⟩

theorem reserve_booked (streamed streamed' : Bool) (collected : List UInt8) :
    Booked budget c (.collecting streamed) (reserve c streamed' collected) := by
  refine ⟨?_, ?_⟩
  · simp only [reserve, drawn, chunkBytes, guardBytes, inProgress]
    omega
  · by_cases hover : c + collected.length > budget
    · left
      simp only [reserve, keeps, chunkBytes, guardBytes, passing, if_pos hover]
      omega
    · right
      show c + collected.length ≤ budget
      omega

theorem checkReservation_booked (streamed : Bool) (body : List UInt8) (prev : Int) :
    Booked budget c (.reserved streamed body prev) (checkReservation budget c streamed body prev) := by
  by_cases hover : prev + body.length > budget
  · rw [checkReservation, if_pos hover]
    refine ⟨?_, .inl (Nat.zero_le _)⟩
    simp only [drawn, chunkBytes, guardBytes, inProgress]
    omega
  · rw [checkReservation, if_neg hover]
    have hpump : ∀ p : Pump, p = (if streamed then .reading 0 else .over) →
        p.chunkBytes = 0 ∧ p.inProgress = 0 ∧ p.passing budget = 0 := by
      rintro p rfl
      cases streamed <;> exact ⟨rfl, rfl, rfl⟩
    obtain ⟨hchunk, hprogress, hpassing⟩ := hpump _ rfl
    refine booked_of_same ?_ ?_
    · simp only [drawn, chunkBytes, guardBytes, inProgress, hchunk, hprogress, total,
        Option.getD_some]
      omega
    · simp only [keeps, chunkBytes, guardBytes, passing, hchunk, hpassing, total,
        Option.getD_some, if_neg hover]
      omega

/-! ### The pump and the channel -/

variable (x : Exchange)

theorem drawn_served : (served x).drawn = x.pump.chunkBytes + x.pump.inProgress +
    (total BodyChunk.len x.queue + total BudgetedChunk.len x.hand + x.guarded.getD 0) := by
  simp only [drawn, chunkBytes, guardBytes, inProgress]
  omega

theorem keeps_served : (served x).keeps budget = x.pump.chunkBytes + x.pump.passing budget +
    (total BodyChunk.len x.queue + total BudgetedChunk.len x.hand + x.guarded.getD 0) := by
  simp only [keeps, chunkBytes, guardBytes, passing]
  omega

def ExchangeBooked (budget : Nat) (c : Int) (x : Exchange) (after : Int × Exchange) : Prop :=
  Booked budget c (.served x) (after.1, .served after.2)

theorem withPump_booked {x : Exchange} {after : Int × Pump}
    (hexact : after.1 + (x.pump.chunkBytes + x.pump.inProgress : Nat) =
      c + (after.2.chunkBytes + after.2.inProgress : Nat))
    (hwithin : after.2.chunkBytes + after.2.passing budget ≤ x.pump.chunkBytes + x.pump.passing budget ∨
      after.1 ≤ budget) :
    ExchangeBooked budget c x (x.withPump after) := by
  refine ⟨?_, hwithin.imp (fun h => ?_) id⟩
  · simp only [Exchange.withPump, drawn_served]
    omega
  · simp only [Exchange.withPump, keeps_served]
    omega

theorem takeFrame_booked {x : Exchange} {n : Nat} (hpump : x.pump = .reading n) (f : Frame) :
    ExchangeBooked budget c x (x.withPump (takeFrame c n f)) := by
  have hidle : ∀ p : Pump, p.chunkBytes = 0 → p.inProgress = 0 → ExchangeBooked budget c x (x.withPump (c, p)) := by
    intro p hchunk hprogress
    have hpassing := p.passing_le budget
    apply withPump_booked
    · rw [hpump]
      show c + ((0 + 0 : Nat) : Int) = c + (p.chunkBytes + p.inProgress : Nat)
      rw [hchunk, hprogress]
    · left
      show p.chunkBytes + p.passing budget ≤ _
      omega
  cases f with
  | data bytes =>
    rw [takeFrame]
    split
    · exact hidle _ rfl rfl
    apply withPump_booked
    · simp only [hpump, Pump.chunkBytes, Pump.inProgress]
      omega
    · by_cases hover : c + bytes.length > budget
      · left
        simp only [Pump.chunkBytes, Pump.passing, if_pos hover]
        omega
      · right
        show c + bytes.length ≤ budget
        omega
  | trailers | failed | finished => exact hidle _ rfl rfl

theorem checkCharge_booked {x : Exchange} {n : Nat} {data : List UInt8} {prev : Int}
    (hpump : x.pump = .charged n data prev) :
    ExchangeBooked budget c x (x.withPump (checkCharge budget c n data prev)) := by
  by_cases hover : prev + data.length > budget
  · rw [checkCharge, if_pos hover]
    apply withPump_booked
    · simp only [hpump, Pump.chunkBytes, Pump.inProgress]
      omega
    · exact .inl (Nat.zero_le _)
  · rw [checkCharge, if_neg hover]
    apply withPump_booked
    · simp only [hpump, Pump.chunkBytes, Pump.inProgress, BudgetedChunk.new]
      omega
    · left
      simp only [hpump, Pump.chunkBytes, Pump.passing, BudgetedChunk.new, if_neg hover]
      omega

theorem booked_of_refund {x y : Exchange} {refund : Nat} (hexact : (served y).drawn + refund = (served x).drawn)
    (hkeeps : (served y).keeps budget ≤ (served x).keeps budget) {c' : Int} (hc : c' = c - refund) :
    ExchangeBooked budget c x (c', y) := by
  refine ⟨?_, .inl hkeeps⟩
  show c' + (served x).drawn = c + (served y).drawn
  omega

theorem sent_booked : ExchangeBooked budget c x (sent c x) := by
  rw [sent]
  cases hpump : x.pump with
  | sending =>
    dsimp only
    split
    · apply booked_of_refund _ _ rfl <;> simp only [drawn_served, keeps_served, hpump, Pump.chunkBytes, Pump.inProgress,
        Pump.passing] <;> omega
    · split
      · refine booked_of_same ?_ ?_ <;> simp only [drawn_served, keeps_served, hpump, Pump.chunkBytes, Pump.inProgress,
          Pump.passing, total_append, total, BodyChunk.len] <;> omega
      · exact booked_of_same
  | failing =>
    dsimp only
    split
    · refine booked_of_same ?_ ?_ <;> simp only [drawn_served, keeps_served, hpump, Pump.chunkBytes, Pump.inProgress,
        Pump.passing, Nat.le_refl]
    · split
      · refine booked_of_same ?_ ?_ <;> simp only [drawn_served, keeps_served, hpump, Pump.chunkBytes, Pump.inProgress,
          Pump.passing, total_append, total, BodyChunk.len] <;> omega
      · exact booked_of_same
  | _ => exact booked_of_same

theorem pumpDropped_booked : ExchangeBooked budget c x (x.withPump (pumpDropped c x.pump)) := by
  apply withPump_booked
  · cases x.pump with
    | sending =>
      simp only [pumpDropped, BudgetedChunk.drop, Pump.chunkBytes, Pump.inProgress]
      omega
    | _ => rfl
  · left
    cases x.pump with
    | sending => exact Nat.zero_le _
    | _ => exact Nat.le_refl _

theorem recv_booked : ExchangeBooked budget c x (c, recv x) := by
  rw [recv]
  split
  · exact booked_of_same
  cases hqueue : x.queue with
  | nil =>
    dsimp only
    split
    · refine booked_of_same ?_ ?_ <;> simp only [drawn_served, keeps_served, hqueue, Nat.le_refl]
    · exact booked_of_same
  | cons item =>
    cases item <;> refine booked_of_same ?_ ?_ <;>
      simp only [drawn_served, keeps_served, hqueue, total, BodyChunk.len] <;> omega

theorem intoData_booked (i : Nat) : ExchangeBooked budget c x (intoData c x i) := by
  rw [intoData]
  cases hchunk : x.hand[i]? with
  | none => exact booked_of_same
  | some =>
    have htotal := total_eraseIdx BudgetedChunk.len hchunk
    apply booked_of_refund _ _ rfl <;> simp only [drawn_served, keeps_served] <;> omega

theorem dropQueued_booked : ExchangeBooked budget c x (dropQueued c x) := by
  rw [dropQueued]
  cases hreceiver : x.receiver with
  | true => exact booked_of_same
  | false =>
    cases hqueue : x.queue with
    | nil => exact booked_of_same
    | cons item =>
      have hdrop : item.drop c = c - item.len := by
        cases item with
        | ok => rfl
        | err => exact (Int.sub_zero c).symm
      apply booked_of_refund _ _ hdrop <;> simp only [drawn_served, keeps_served, hqueue, total] <;> omega

theorem dispatchEnds_booked : ExchangeBooked budget c x (dispatchEnds c x) := by
  rw [dispatchEnds]
  cases hguard : x.guarded with
  | none => exact booked_of_same
  | some reserved =>
    have hdrop : dropGuard reserved c = c - reserved := by
      rw [dropGuard]
      split <;> omega
    apply booked_of_refund _ _ hdrop <;>
      simp only [drawn_served, keeps_served, hguard, Option.getD_some, Option.getD_none] <;> omega

theorem exchangeAct_booked (a : Act) : ExchangeBooked budget c x (exchangeAct budget c x a) := by
  cases a with
  | frame f =>
    rw [exchangeAct]
    cases hpump : x.pump with
    | reading => exact takeFrame_booked hpump f
    | _ => exact booked_of_same
  | checkCharge =>
    rw [exchangeAct]
    cases hpump : x.pump with
    | charged => exact checkCharge_booked hpump
    | _ => exact booked_of_same
  | sent => exact sent_booked x
  | pumpDropped => exact pumpDropped_booked x
  | recv => exact recv_booked x
  | intoData i => exact intoData_booked x i
  | dropQueued => exact dropQueued_booked x
  | dispatchEnds => exact dispatchEnds_booked x
  | close | collected | checkReservation => exact booked_of_same

theorem act_booked (r : Request) (a : Act) : Booked budget c r (act budget c r a) := by
  cases r with
  | collecting streamed =>
    cases a with
    | collected result =>
      cases streamed with
      | true => exact reserve_booked true true []
      | false =>
        cases result with
        | whole bytes => exact reserve_booked false false bytes
        | _ => exact booked_of_same
    | _ => exact booked_of_same
  | reserved streamed body prev =>
    cases a with
    | checkReservation => exact checkReservation_booked streamed body prev
    | _ => exact booked_of_same
  | refused => exact booked_of_same
  | served x => exact exchangeAct_booked x a

/-! ## Every run -/

theorem rules (budget : Nat) : Rules collecting (act budget) drawn (keeps budget) budget where
  fresh := fun _ => rfl
  keeps_le := keeps_le_drawn budget
  exact := fun _ r a => (act_booked r a).exact
  within := fun _ r a => (act_booked r a).within

theorem drawn_of_gone {r : Request} (h : r.gone) : r.drawn = 0 := by
  cases r with
  | refused => rfl
  | served =>
    simp only [gone, Bool.and_eq_true, Option.isNone_iff_eq_none, decide_eq_true_eq, List.isEmpty_iff] at h
    obtain ⟨⟨⟨hguard, hpump⟩, hqueue⟩, hhand⟩ := h
    rw [drawn_served, hguard, hpump, hqueue, hhand]
    rfl
  | collecting | reserved => cases h

/-- **The budget is conserved, and never exceeded.** `body_bytes` is what the live chunks, the guards and the pending
    charges hold; chunks and guards are within the budget; and in the end it is zero. -/
theorem body_bytes_conserved (budget : Nat) (moves : List (Move Bool Act)) : (run budget moves).counter =
        (total chunkBytes (run budget moves).parties + total guardBytes (run budget moves).parties +
          total inProgress (run budget moves).parties : Nat) ∧
      0 ≤ (run budget moves).counter ∧
      total chunkBytes (run budget moves).parties + total guardBytes (run budget moves).parties ≤ budget ∧
      ((∀ r ∈ (run budget moves).parties, r.gone = true) → (run budget moves).counter = 0) := by
  have hstart : Balanced drawn (keeps budget) budget (⟨0, []⟩ : Server) := ⟨rfl, Nat.zero_le _⟩
  obtain ⟨hcounter, hkeeps⟩ := run_balanced (rules budget) hstart moves
  change (run budget moves).counter = (total drawn (run budget moves).parties : Nat) at hcounter
  change total (keeps budget) (run budget moves).parties ≤ budget at hkeeps
  have hdrawn : total drawn (run budget moves).parties =
      total chunkBytes (run budget moves).parties + total guardBytes (run budget moves).parties +
        total inProgress (run budget moves).parties := by
    rw [← total_add, ← total_add]
    rfl
  refine ⟨by rw [hcounter, hdrawn], by omega, ?_, ?_⟩
  · have hlive := total_le_total (fun r : Request => Nat.le_add_right (r.chunkBytes + r.guardBytes) (r.passing budget))
      (run budget moves).parties
    rw [total_add] at hlive
    exact Nat.le_trans hlive hkeeps
  · intro hgone
    rw [hcounter, total_eq_zero fun r hr => drawn_of_gone (hgone r hr)]
    rfl

end Oam.Http.Budget
