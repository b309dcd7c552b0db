/-
  The records of the CommonJS loads under way (`oam_engine/src/cjs.rs`: `load_cjs_inner`, `set_executing`, `evict`).
  The set is keyed by path, and the stack may hold a path twice: a file that deletes its entry can be loaded again
  INSIDE its own body (`reentered_records_differ`).
-/
import Oam.Lib.Trace

namespace Oam.Engine.Cjs

open List Trace Function

variable {K : Type} [DecidableEq K]

/-! ## Data -/

/-- A body that runs, and whether its bytecode is to be refreshed. -/
structure Frame (K : Type) where
  key : K
  refresh : Bool
deriving DecidableEq

structure CjsCache (K : Type) where
  modules : K → Bool := fun _ => false
  requireCache : K → Bool := fun _ => false
  executing : K → Bool := fun _ => false
  inFlightCodeCache : List K := []
  /-- The innermost body first. -/
  stack : List (Frame K) := []

inductive Step (K : Type) where
  | require (body : Frame K)
  | deletes (key : K)
  | plants (key : K)
  | leave (throws : Bool)

/-! ## Program -/

def evict (w : CjsCache K) (key : K) : CjsCache K :=
  if w.modules key then
    { w with modules := update w.modules key false, requireCache := update w.requireCache key false }
  else w

/-- `load_cjs_inner` up to the call of the body. -/
def start (w : CjsCache K) (body : Frame K) : CjsCache K :=
  let w := evict w body.key
  { modules := update w.modules body.key true
    requireCache := update w.requireCache body.key true
    executing := update w.executing body.key true
    inFlightCodeCache := if body.refresh then w.inFlightCodeCache ++ [body.key] else w.inFlightCodeCache
    stack := body :: w.stack }

/-- `load_cjs_inner` behind the body, up to where a throw matters. -/
def finish (w : CjsCache K) (body : Frame K) (rest : List (Frame K)) : CjsCache K :=
  { w with
    executing := update w.executing body.key false
    inFlightCodeCache := if body.refresh then w.inFlightCodeCache.dropLast else w.inFlightCodeCache
    stack := rest }

/-- The next records, and the body that was started. -/
def step (w : CjsCache K) : Step K → CjsCache K × List (Frame K)
  | .require body => if w.requireCache body.key then (w, []) else (start w body, [body])
  | .deletes key => ({ w with requireCache := update w.requireCache key false }, [])
  | .plants key => ({ w with requireCache := update w.requireCache key true }, [])
  | .leave throws =>
    match w.stack with
    | [] => (w, [])
    | body :: rest => (if throws then evict (finish w body rest) body.key else finish w body rest, [])

/-- No body is started inside a body of the same file. -/
def notInside (w : CjsCache K) : Step K → Bool
  | .require body => w.requireCache body.key || body.key ∉ w.stack.map (·.key)
  | _ => true

/-! ## Correctness -/

structure Inv (w : CjsCache K) : Prop where
  nodup : (w.stack.map (·.key)).Nodup
  modules : ∀ body ∈ w.stack, w.modules body.key
  executing : ∀ key, w.executing key ↔ key ∈ w.stack.map (·.key)
  inFlight : w.inFlightCodeCache = (w.stack.reverse.filter (·.refresh)).map (·.key)

variable {w : CjsCache K}

theorem evict_stack (w : CjsCache K) (key : K) : (evict w key).stack = w.stack := by
  unfold evict
  split <;> rfl

theorem evict_inv (h : Inv w) {key : K} (hout : key ∉ w.stack.map (·.key)) : Inv (evict w key) := by
  unfold evict
  split
  · refine ⟨h.nodup, fun body hbody => ?_, h.executing, h.inFlight⟩
    have hne : body.key ≠ key := fun heq => hout (mem_map.mpr ⟨body, hbody, heq⟩)
    exact (update_of_ne hne ..).trans (h.modules body hbody)
  · exact h

theorem start_inv (h : Inv w) {body : Frame K} (hnew : body.key ∉ w.stack.map (·.key)) : Inv (start w body) := by
  replace h := evict_inv h hnew
  rw [← evict_stack w body.key] at hnew
  unfold start
  generalize evict w body.key = w at h hnew
  refine ⟨nodup_cons.mpr ⟨hnew, h.nodup⟩, fun other hother => ?_, fun key => ?_, ?_⟩
  · rcases mem_cons.mp hother with rfl | hother
    · exact update_self ..
    · by_cases heq : other.key = body.key
      · simp [heq]
      · simpa [update_of_ne heq] using h.modules other hother
  · by_cases heq : key = body.key
    · simp [heq]
    · simpa [update_of_ne heq, heq] using h.executing key
  · cases hrefresh : body.refresh <;> simp [hrefresh, h.inFlight]

theorem finish_inv {body : Frame K} {rest : List (Frame K)} (h : Inv w) (hstack : w.stack = body :: rest) :
    body.key ∉ rest.map (·.key) ∧ Inv (finish w body rest) := by
  obtain ⟨hnodup, hmodules, hexecuting, hinFlight⟩ := h
  rw [hstack] at hnodup hmodules hexecuting hinFlight
  obtain ⟨hout, hnodup⟩ := nodup_cons.mp hnodup
  refine ⟨hout, hnodup, fun other hother => hmodules other (mem_cons_of_mem _ hother), fun key => ?_, ?_⟩
  · by_cases heq : key = body.key
    · simpa [finish, heq] using hout
    · simpa [finish, update_of_ne heq, heq] using hexecuting key
  · cases hrefresh : body.refresh <;> simp [finish, hrefresh, hinFlight]

theorem step_inv (w : CjsCache K) (a : Step K) (hok : notInside w a) (h : Inv w) : Inv (step w a).1 := by
  cases a with
  | require body =>
    rw [step]
    split
    · exact h
    · next hmiss =>
      simp only [notInside, hmiss, Bool.false_or, decide_eq_true_eq] at hok
      exact start_inv h hok
  | deletes | plants => exact ⟨h.nodup, h.modules, h.executing, h.inFlight⟩
  | leave throws =>
    rw [step]
    split
    · exact h
    · next hstack =>
      obtain ⟨hout, h⟩ := finish_inv h hstack
      cases throws with
      | false => exact h
      | true => exact evict_inv h hout

/-- **The records match what is running,** if no body is started inside a body of the same file. -/
theorem records_match_running (steps : List (Step K)) (hok : Along step notInside {} steps) :
    let w := (run step {} steps).1
    (∀ body, (step w (.require body)).2 = if w.requireCache body.key then [] else [body]) ∧
      (∀ key, w.executing key ↔ key ∈ w.stack.map (·.key)) ∧
      (∀ body rest, w.stack = body :: rest → (step w (.leave true)).1.modules body.key = false ∧
        (step w (.leave true)).1.requireCache body.key = false) ∧
      w.inFlightCodeCache = (w.stack.reverse.filter (·.refresh)).map (·.key) := by
  intro w
  have h : Inv w := run_keeps_along Inv step_inv ⟨.nil, nofun, by simp, rfl⟩ hok
  refine ⟨fun body => ?_, h.executing, fun body rest hstack => ?_, h.inFlight⟩
  · rw [step]
    split <;> rfl
  · have hknown : w.modules body.key := h.modules body (hstack ▸ mem_cons_self)
    simp [step, hstack, finish, evict, hknown]

/-- `a` requires `b`, which throws. -/
def nested : List (Step String) := [.require ⟨"a", true⟩, .require ⟨"b", false⟩, .leave true]

theorem nested_records_match : (run step {} nested).1.inFlightCodeCache =
    ((run step {} nested).1.stack.reverse.filter (·.refresh)).map (·.key) :=
  (records_match_running nested (by decide)).2.2.2

/-- `a` deletes its entry and requires itself, which throws; then it plants an entry. -/
def reentered : CjsCache String :=
  (run step {} [.require ⟨"a", false⟩, .deletes "a", .require ⟨"a", false⟩, .leave true, .plants "a"]).1

/-- **The outer body runs on, not executing, and what it planted outlives its own throw.** -/
theorem reentered_records_differ : reentered.stack = [⟨"a", false⟩] ∧ reentered.executing "a" = false ∧
    (step reentered (.leave true)).1.requireCache "a" = true := by
  decide

end Oam.Engine.Cjs
