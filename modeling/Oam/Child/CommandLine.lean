/-
  The command line of a child on Windows (`oam_core/src/child_win.rs`), and what the child reads back from it.  Texts
  are taken character by character: what is special is ASCII.
-/
import Oam.Lib.Text

namespace Oam.Child

open List Text

/-! ## Program -/

/-- The loop of `append_quoted`, with the backslashes counted and not yet written. -/
def quotedBody : Nat → Str → Str
  | backslashes, [] => replicate (backslashes * 2) '\\'
  | backslashes, c :: cs =>
    if c = '\\' then quotedBody (backslashes + 1) cs
    else if c = '"' then replicate (backslashes * 2 + 1) '\\' ++ '"' :: quotedBody 0 cs
    else replicate backslashes '\\' ++ c :: quotedBody 0 cs

/-- What `append_quoted` appends. -/
def appendQuoted (arg : Str) : Str :=
  if !arg.isEmpty && !arg.any [' ', '\t', '\n', '\x0b', '"'].contains then arg else '"' :: quotedBody 0 arg ++ ['"']

def commandLine (argv0 : Str) (args : List Str) : Str :=
  appendQuoted argv0 ++ args.flatMap fun a => ' ' :: appendQuoted a

/-! ## Specification -/

def isBlank (c : Char) : Bool := c = ' ' || c = '\t'

/-- What is left after the program name: a name in quotes ends at the next quote, any other at a blank. -/
def afterName : Str → Str
  | '"' :: s => (s.dropWhile (· ≠ '"')).tail
  | s => s.dropWhile (!isBlank ·)

/-- The arguments read, the one that is being read, and the backslashes just before. -/
structure Reader where
  done : List Str
  current : Option Str := none
  quoted : Bool := false
  slashes : Nat := 0

namespace Reader

def add (r : Reader) (slashes : Nat) (s : Str) : Reader :=
  { r with current := some (r.current.getD [] ++ replicate slashes '\\' ++ s), slashes := 0 }

def text (r : Reader) : Str := r.current.getD [] ++ replicate r.slashes '\\'

def finish (r : Reader) : Reader :=
  if r.current.isSome then { done := r.done ++ [r.text], quoted := r.quoted } else r

/-- Before a quote 2n backslashes are n, and 2n + 1 are n and make the quote a character; blanks split outside quotes.
    -/
def scan (r : Reader) (c : Char) : Reader :=
  if c = '\\' then { r with current := some (r.current.getD []), slashes := r.slashes + 1 }
  else if c = '"' then
    if r.slashes % 2 = 0 then { r.add (r.slashes / 2) [] with quoted := !r.quoted } else r.add (r.slashes / 2) ['"']
  else if isBlank c && !r.quoted then r.finish
  else r.add r.slashes [c]

end Reader

def argumentsOf (line : Str) : List Str := ((afterName line).foldl Reader.scan { done := [] }).finish.done

/-! ## Correctness -/

open Reader

theorem foldl_scan_slashes (r : Reader) (k : Nat) {text : Str} (ht : r.current = some text) :
    (replicate k '\\').foldl scan r = { r with slashes := r.slashes + k } := by
  induction k generalizing r with
  | zero => rfl
  | succ k ih =>
    have hread : r.scan '\\' = { r with slashes := r.slashes + 1 } := by simp [scan, ht]
    rw [replicate_succ, foldl_cons, hread, ih]
    · simp [Nat.add_right_comm, Nat.add_assoc]
    · exact ht

/-- The body and the closing quote, read inside quotes. -/
theorem scan_quotedBody (done : List Str) (cs : Str) (n : Nat) (text : Str) :
    (quotedBody n cs ++ ['"']).foldl scan { done, current := some text, quoted := true } =
      { done, current := some (text ++ replicate n '\\' ++ cs) } := by
  induction cs generalizing n text with
  | nil =>
    rw [quotedBody, foldl_append, foldl_scan_slashes _ _ rfl]
    simp [scan, add]
  | cons c cs ih =>
    rw [quotedBody]
    split
    next hc => rw [ih, hc, replicate_succ', append_assoc, append_assoc, append_assoc]; rfl
    split
    next hc =>
      rw [append_assoc, foldl_append, foldl_scan_slashes _ _ rfl, cons_append, foldl_cons]
      have hn : (n * 2 + 1) / 2 = n := by omega
      simp [scan, add, hn, ih, hc]
    next hs hq =>
      rw [append_assoc, foldl_append, foldl_scan_slashes _ _ rfl, cons_append, foldl_cons]
      simp [scan, add, hs, hq, ih]

variable {r : Reader}

theorem scan_plain {c : Char} (hr : r.quoted = false) (hc : c ≠ '"' ∧ isBlank c = false) :
    (r.scan c).done = r.done ∧ (r.scan c).quoted = false ∧ (r.scan c).current.isSome ∧
      (r.scan c).text = r.text ++ [c] := by
  by_cases hs : c = '\\'
  · simp [scan, hs, text, hr, replicate_succ']
  · simp [scan, hs, hc, text, add, hr]

/-- An argument without a quote or a blank is read as it is, backslashes and all. -/
theorem finish_plain {s : Str} (hs : ∀ c ∈ s, c ≠ '"' ∧ isBlank c = false) (hr : r.quoted = false)
    (hc : r.current.isSome) : (s.foldl scan r).finish = { done := r.done ++ [r.text ++ s] } := by
  induction s generalizing r with
  | nil => rw [foldl_nil, finish, if_pos hc, hr, append_nil]
  | cons c s ih =>
    obtain ⟨hc, hs⟩ := forall_mem_cons.mp hs
    obtain ⟨hdone, hquoted, hcur, htext⟩ := scan_plain hr hc
    rw [foldl_cons, ih hs hquoted hcur, hdone, htext, append_assoc]
    rfl

/-- An argument that is appended as it is. -/
theorem raw_cases {arg : Str} (h : (!arg.isEmpty && !arg.any [' ', '\t', '\n', '\x0b', '"'].contains)) :
    ∃ c s, arg = c :: s ∧ ∀ a ∈ c :: s, a ≠ '"' ∧ isBlank a = false := by
  cases arg with
  | nil => cases h
  | cons c s =>
    refine ⟨c, s, rfl, fun a ha => ?_⟩
    have := any_eq_false.mp (Bool.not_eq_true' _ |>.mp h) a ha
    simp_all [isBlank]

theorem scan_appendQuoted (done : List Str) (arg : Str) :
    ((appendQuoted arg).foldl scan { done }).finish = { done := done ++ [arg] } := by
  rw [appendQuoted]
  split
  next h =>
    obtain ⟨c, s, rfl, hplain⟩ := raw_cases h
    obtain ⟨hc, hs⟩ := forall_mem_cons.mp hplain
    obtain ⟨hdone, hquoted, hcur, htext⟩ := scan_plain (r := { done }) rfl hc
    rw [foldl_cons, finish_plain hs hquoted hcur, hdone, htext]
    rfl
  · have hopen : scan { done } '"' = { done, current := some [], quoted := true } := by simp [scan, add]
    rw [cons_append, foldl_cons, hopen, scan_quotedBody]
    simp [finish, text]

theorem scan_arguments (args : List Str) {done : List Str} (hr : r.finish = { done }) :
    ((args.flatMap fun a => ' ' :: appendQuoted a).foldl scan r).finish.done = done ++ args := by
  induction args generalizing done r with
  | nil => simp [hr]
  | cons a args ih =>
    have hquoted : r.quoted = false := by
      have := congrArg quoted hr
      simpa [finish, apply_ite] using this
    have hscan : r.scan ' ' = { done } := by simp [scan, isBlank, hquoted, hr]
    rw [flatMap_cons, cons_append, foldl_cons, foldl_append, hscan, ih (scan_appendQuoted done a), append_assoc]
    rfl

theorem quote_not_mem_quotedBody {s : Str} (h : '"' ∉ s) (n : Nat) : '"' ∉ quotedBody n s := by
  induction s generalizing n with
  | nil => simp [quotedBody]
  | cons c s ih =>
    rw [quotedBody]
    simp only [mem_cons, not_or] at h
    split
    · exact ih h.2 _
    · simp [h.1, ih h.2, Ne.symm h.1]

theorem afterName_appendQuoted {argv0 s : Str} (h : '"' ∉ argv0) (hs : ∀ c ∈ s.head?, c = ' ') :
    afterName (appendQuoted argv0 ++ s) = s := by
  rw [appendQuoted]
  split
  next hraw =>
    obtain ⟨c, cs, rfl, hplain⟩ := raw_cases hraw
    have hname : afterName (c :: cs ++ s) = (c :: cs ++ s).dropWhile (!isBlank ·) := by
      rw [cons_append, afterName]
      intro _ hq
      cases hq
      exact h mem_cons_self
    rw [hname, dropWhile_append_of_pos fun a ha => by simp [(hplain a ha).2]]
    cases s with
    | nil => rfl
    | cons b s => exact dropWhile_cons_of_neg (by simp [isBlank, hs b rfl])
  · show (((quotedBody 0 argv0 ++ ['"']) ++ s).dropWhile _).tail = s
    rw [append_assoc, dropWhile_append_of_pos]
    · rfl
    · rintro a ha
      exact decide_eq_true fun hq => quote_not_mem_quotedBody h 0 (hq ▸ ha)

/-- **The child gets the arguments it was given.** -/
theorem argumentsOf_commandLine {argv0 : Str} (h : '"' ∉ argv0) (args : List Str) :
    argumentsOf (commandLine argv0 args) = args := by
  have hblank : ∀ c ∈ (args.flatMap fun a => ' ' :: appendQuoted a).head?, c = ' ' := by
    cases args <;> simp
  have hfresh : finish { done := [] } = { done := [] } := rfl
  rw [argumentsOf, commandLine, afterName_appendQuoted h hblank]
  exact scan_arguments args hfresh

theorem argumentsOf_commandLine_slashes : argumentsOf (commandLine ['a', ' ', '\\'] [[], ['\\', '"', '\\'], ['b', '\\']]) =
    [[], ['\\', '"', '\\'], ['b', '\\']] := argumentsOf_commandLine (by decide) _

end Oam.Child
