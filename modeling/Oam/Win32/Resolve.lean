/-
  `oam_core`: Windows paths resolved as node resolves them, on any host.  The tail is normalised in one pass over the
  characters that counts dots, cuts segments and pops on `..`, with lengths in BYTES; with no way above the root that is
  a lexical walk, so what the loop returns is the text of a location.
-/
import Oam.Lib.LexPath

namespace Oam.Win32

open List Text LexPath

/-! ## The program -/

/-- `/` or `\`. -/
def isSep (c : Char) : Bool := c == '/' || c == '\\'

/-- The characters of the first `n` bytes, if a character ends there (`str::get(..n)`). -/
def bytePrefix : Str → Nat → Option Str
  | _, 0 => some []
  | [], _ + 1 => none
  | c :: cs, n + 1 =>
    if c.utf8Size ≤ n + 1 then (bytePrefix cs (n + 1 - c.utf8Size)).map (c :: ·) else none

/-- Which of node's two implementations to follow. -/
inductive Win32ResolveMode where
  | js
  | cpp
deriving DecidableEq, Repr

/-- A candidate's root: its device, whether it is absolute, and the text after the root. -/
structure Root where
  device : Str
  isAbsolute : Bool
  rest : Str
deriving DecidableEq, Repr

/-- The root of a candidate that starts with two separators: a UNC root, a device root, or none. -/
def parseUnc (candidate more : Str) : Root :=
  let first := more.takeWhile fun c => !isSep c
  let rest := (more.dropWhile fun c => !isSep c).dropWhile isSep
  if first = [] ∨ rest = [] then ⟨[], true, candidate⟩
  else if first ≠ ['.'] ∧ first ≠ ['?'] then
    ⟨'\\' :: '\\' :: (first ++ '\\' :: rest.takeWhile fun c => !isSep c), true, rest.dropWhile fun c => !isSep c⟩
  else ⟨'\\' :: '\\' :: first, true, candidate.drop 4⟩

def parseRoot (candidate : Str) : Root :=
  match candidate with
  | [] => ⟨[], false, []⟩
  | [c] => if isSep c then ⟨[], true, []⟩ else ⟨[], false, [c]⟩
  | c :: d :: more =>
    if isSep c then
      if isSep d then parseUnc candidate more else ⟨[], true, d :: more⟩
    else if c.isAlpha && d == ':' then
      match more with
      | e :: rest => if isSep e then ⟨[c, d], true, rest⟩ else ⟨[c, d], false, more⟩
      | [] => ⟨[c, d], false, []⟩
    else ⟨[], false, candidate⟩

structure Resolved where
  device : Str
  tail : Str
  absolute : Bool
deriving DecidableEq, Repr

inductive Flow where
  | next (s : Resolved)
  | stop (s : Resolved)

/-- One candidate.  A candidate on another device does not apply. -/
def resolveStep (s : Resolved) (candidate : Str) : Flow :=
  if candidate = [] then .next s
  else
    let root := parseRoot candidate
    if root.device ≠ [] ∧ s.device ≠ [] ∧ eqIgnoreAsciiCase root.device s.device = false then .next s
    else
      let device := if s.device = [] then root.device else s.device
      if s.absolute then
        if device ≠ [] then .stop { s with device := device } else .next { s with device := device }
      else
        let s' : Resolved := ⟨device, root.rest ++ '\\' :: s.tail, root.isAbsolute⟩
        if root.isAbsolute ∧ device ≠ [] then .stop s' else .next s'

/-- The last candidate: the cwd, or, once a device is known, that drive's own directory or root. -/
def lastCandidate (mode : Win32ResolveMode) (cwd : Str) (driveCwd : Str → Option Str)
    (device : Str) : Str :=
  if device = [] then cwd
  else
    let drive := ((driveCwd device).filter fun dir => !dir.isEmpty).getD cwd
    let otherDrive := !(bytePrefix drive 2).any fun head => eqIgnoreAsciiCase head device
    let root : Bool :=
      match mode with
      | .js => otherDrive && (bytePrefix drive 3).any fun head => head.getLast? == some '\\'
      | .cpp =>
        drive.isEmpty || (otherDrive && (bytePrefix drive 3).any fun head => head.getLast? == some '/')
    if root then device ++ ['\\'] else drive

def resolveLoop (mode : Win32ResolveMode) (cwd : Str) (driveCwd : Str → Option Str) : Resolved → List Str → Resolved
  | s, [] =>
    match resolveStep s (lastCandidate mode cwd driveCwd s.device) with
    | .next s' => s'
    | .stop s' => s'
  | s, candidate :: rest =>
    match resolveStep s candidate with
    | .next s' => resolveLoop mode cwd driveCwd s' rest
    | .stop s' => s'

/-- The normaliser's registers; the dots are `-1` once the segment has another character. -/
structure Norm where
  res : Str
  lastSegmentLength : Nat
  seg : Str
  dots : Int
deriving DecidableEq, Repr

/-- `res.len() - 1 - res.rfind('\\')`, the byte length of the last segment of `res`. -/
def segmentLength (res : Str) : Nat :=
  match rsplitOnce '\\' res with
  | none => utf8Len res
  | some (_, last) => utf8Len last

/-- A separator, or the end of the text: the segment that ends there is dropped, popped or kept. -/
def endSegment (allowAboveRoot : Bool) (s : Norm) : Norm :=
  if s.seg = [] ∨ s.dots = 1 then { s with seg := [], dots := 0 }
  else if s.dots = 2 then
    let endsInDotdot := 2 ≤ utf8Len s.res ∧ s.lastSegmentLength = 2 ∧ ['.', '.'] <:+ s.res
    if ¬ endsInDotdot ∧ 2 < utf8Len s.res then
      match rsplitOnce '\\' s.res with
      | none => ⟨[], 0, [], 0⟩
      | some (kept, _) => ⟨kept, segmentLength kept, [], 0⟩
    else if ¬ endsInDotdot ∧ s.res ≠ [] then ⟨[], 0, [], 0⟩
    else if allowAboveRoot then
      ⟨if s.res = [] then ['.', '.'] else s.res ++ ['\\', '.', '.'], 2, [], 0⟩
    else { s with seg := [], dots := 0 }
  else
    ⟨(if s.res = [] then [] else s.res ++ ['\\']) ++ s.seg, utf8Len s.seg, [], 0⟩

def normStep (allowAboveRoot : Bool) (s : Norm) (c : Char) : Norm :=
  if isSep c then endSegment allowAboveRoot s
  else if c = '.' ∧ s.dots ≠ -1 then { s with seg := s.seg ++ [c], dots := s.dots + 1 }
  else { s with seg := s.seg ++ [c], dots := -1 }

/-- A last separator ends the loop without a segment of its own. -/
def normalizeWin32Tail (path : Str) (allowAboveRoot : Bool) : Str :=
  let s := path.foldl (normStep allowAboveRoot) ⟨[], 0, [], 0⟩
  if path.getLast?.any isSep then s.res else (endSegment allowAboveRoot s).res

/-- `win32_resolve_all_mode`: the arguments right to left, then the cwd. -/
def win32ResolveAllMode (mode : Win32ResolveMode) (cwd : Str) (driveCwd : Str → Option Str)
    (paths : List Str) : Str :=
  let s := resolveLoop mode cwd driveCwd ⟨[], [], false⟩ paths.reverse
  let tail := normalizeWin32Tail s.tail (!s.absolute)
  if s.absolute then s.device ++ '\\' :: tail
  else if s.device ++ tail = [] then ['.'] else s.device ++ tail

def win32ResolveMode (mode : Win32ResolveMode) (cwd : Str) (driveCwd : Str → Option Str)
    (path : Str) : Str :=
  win32ResolveAllMode mode cwd driveCwd [path]

/-- `fs_os_path_with`, node's `ToNamespacedPath`. -/
def fsOsPathWith (mode : Win32ResolveMode) (cwd : Str) (driveCwd : Str → Option Str)
    (path : Str) : Str :=
  if path = [] then path
  else
    let resolved := win32ResolveMode mode cwd driveCwd path
    if utf8Len resolved ≤ 2 then path
    else
      match resolved with
      | '\\' :: '\\' :: c :: rest =>
        if c ≠ '?' ∧ c ≠ '.' then '\\' :: '\\' :: '?' :: '\\' :: ("UNC\\".toList ++ c :: rest)
        else resolved
      | c :: ':' :: '\\' :: _ =>
        if c.isAlpha then '\\' :: '\\' :: '?' :: '\\' :: resolved else resolved
      | _ => resolved

-- As measured on node with the cwd `C:\Windows`.
example : win32ResolveMode .cpp "C:\\Windows".toList (fun _ => none) "Z:a".toList = "Z:a".toList ∧
    win32ResolveMode .js "C:\\Windows".toList (fun _ => none) "Z:a".toList = "Z:\\a".toList := by
  decide +kernel

/-! ## Byte lengths -/

theorem eq_dotdot_of_suffix {pre n : Str} (hne : n ≠ []) (hlen : utf8Len n = 2)
    (hsuf : ['.', '.'] <:+ pre ++ n) : n = ['.', '.'] := by
  rcases eq_nil_or_concat n with rfl | ⟨m, c, rfl⟩
  · exact absurd rfl hne
  · rw [concat_eq_append] at hlen hsuf ⊢
    obtain ⟨t, ht⟩ := hsuf
    have hlast : t ++ ['.'] ++ ['.'] = pre ++ m ++ [c] := by simpa using ht
    obtain ⟨h1, h2⟩ := append_inj' hlast rfl
    obtain rfl : '.' = c := singleton_inj.mp h2
    have hdot : ('.' : Char).utf8Size = 1 := by decide
    rw [utf8Len_append, utf8Len_cons, utf8Len_nil, hdot] at hlen
    rcases eq_nil_or_concat m with rfl | ⟨m', d, rfl⟩
    · simp at hlen
    · rw [concat_eq_append] at hlen h1 ⊢
      rw [← append_assoc] at h1
      obtain ⟨-, h3⟩ := append_inj' h1 rfl
      obtain rfl : '.' = d := singleton_inj.mp h3
      rw [utf8Len_append, utf8Len_cons, utf8Len_nil, hdot] at hlen
      have hm : m' = [] := by
        by_contra hm
        have := utf8Len_pos hm
        omega
      rw [hm]; rfl

/-! ## The normaliser is a stack -/

/-- A name of a server or a share: not empty, no separator. -/
def IsRootName (n : Str) : Prop := n ≠ [] ∧ ∀ c ∈ n, isSep c = false

def pushSegment (allowAboveRoot : Bool) (stack : List Str) (seg : Str) : List Str :=
  if seg = [] ∨ seg = ['.'] then stack
  else if seg = ['.', '.'] then
    if stack ≠ [] ∧ stack.getLast? ≠ some ['.', '.'] then stack.dropLast
    else if allowAboveRoot then stack ++ [['.', '.']] else stack
  else stack ++ [seg]

/-- What the dot counter holds for a segment. -/
def dotCount (seg : Str) : Int := if seg.all (· == '.') then seg.length else -1

theorem dotCount_concat (seg : Str) (c : Char) : dotCount (seg ++ [c]) = if c = '.' ∧
    dotCount seg ≠ -1 then dotCount seg + 1 else -1 := by
  have hall : (seg ++ [c]).all (· == '.') = (seg.all (· == '.') && c == '.') := by simp
  unfold dotCount
  rw [hall]
  by_cases hseg : seg.all (· == '.')
  · by_cases hc : c = '.'
    · rw [if_pos (by simp [hseg, hc]), if_pos hseg, if_pos ⟨hc, by omega⟩]
      simp
    · rw [if_neg (by simp [hc]), if_neg fun h => hc h.1]
  · rw [if_neg (by simp [hseg]), if_neg hseg, if_neg fun h => h.2 rfl]

theorem eq_replicate_of_dotCount {seg : Str} {n : Nat} (h : dotCount seg = n) : seg = replicate n '.' := by
  unfold dotCount at h
  split at h
  · rename_i hall
    rw [eq_replicate_iff]
    exact ⟨by omega, fun c hc => beq_iff_eq.mp (all_eq_true.mp hall c hc)⟩
  · omega

def lastLength (parts : List Str) : Nat := parts.getLast?.elim 0 utf8Len

/-- The registers hold the stack `parts`. -/
structure Holds (s : Norm) (parts : List Str) : Prop where
  names : ∀ n ∈ parts, IsRootName n
  res_eq : s.res = ['\\'].intercalate parts
  last_eq : s.lastSegmentLength = lastLength parts
  seg_no_sep : ∀ c ∈ s.seg, isSep c = false
  dots_eq : s.dots = dotCount s.seg

theorem holds_init : Holds ⟨[], 0, [], 0⟩ [] := ⟨by simp, rfl, rfl, by simp, rfl⟩

theorem backslash_not_mem {n : Str} (h : IsRootName n) : '\\' ∉ n := fun hmem => nomatch h.2 _ hmem

theorem segmentLength_join {parts : List Str} (h : ∀ n ∈ parts, IsRootName n) :
    segmentLength (['\\'].intercalate parts) = lastLength parts := by
  rcases eq_nil_or_concat parts with rfl | ⟨ps, n, rfl⟩
  · rfl
  · rw [concat_eq_append] at h ⊢
    have hn := backslash_not_mem (h n (by simp))
    by_cases hps : ps = []
    · subst hps
      simp [segmentLength, rsplitOnce_eq_none.mpr hn, lastLength]
    · rw [join_concat _ hps, segmentLength, rsplitOnce_append hn]
      simp [lastLength]

section Stack

variable {s : Norm} {ps parts : List Str} {n : Str} (up : Bool)

theorem Holds.endsInDotdot (h : Holds s (ps ++ [n])) :
    (2 ≤ utf8Len s.res ∧ s.lastSegmentLength = 2 ∧ ['.', '.'] <:+ s.res) ↔ n = ['.', '.'] := by
  obtain ⟨pre, hpre⟩ : ∃ pre, s.res = pre ++ n := by
    rw [h.res_eq]
    by_cases hnil : ps = []
    · exact ⟨[], by rw [hnil]; simp⟩
    · exact ⟨['\\'].intercalate ps ++ ['\\'], by rw [join_concat _ hnil]; simp⟩
  have hlast : s.lastSegmentLength = utf8Len n := by
    rw [h.last_eq]
    simp [lastLength]
  rw [hlast, hpre]
  constructor
  · rintro ⟨-, hlen, hsuf⟩
    exact eq_dotdot_of_suffix (h.names n (by simp)).1 hlen hsuf
  · rintro rfl
    exact ⟨by rw [utf8Len_append]; exact Nat.le_add_left .., rfl, suffix_append ..⟩

theorem pop_holds (h : Holds s (ps ++ [n])) (hn : n ≠ ['.', '.']) (hseg : ¬ (s.seg = [] ∨ s.dots = 1))
    (hdots : s.dots = 2) : Holds (endSegment up s) ps ∧ (endSegment up s).seg = [] := by
  obtain ⟨hps, hname⟩ := forall_mem_append.mp h.names
  have hname := hname n (mem_singleton_self n)
  have hne : ∀ m ∈ ps, m ≠ [] := fun m hm => (hps m hm).1
  have hends := mt h.endsInDotdot.mp hn
  simp only [endSegment, if_neg hseg, if_pos hdots, hends, not_false_eq_true, true_and]
  by_cases hnil : ps = []
  · -- the only name: both ways of popping clear the text
    subst hnil
    have hres : s.res = n := by rw [h.res_eq, nil_append, intercalate_singleton]
    simp only [hres, rsplitOnce_eq_none.mpr (backslash_not_mem hname), hname.1, ne_eq, not_false_eq_true, if_true, ite_self,
      and_true]
    exact holds_init
  · have hres : s.res = ['\\'].intercalate ps ++ '\\' :: n := by rw [h.res_eq, join_concat _ hnil]
    have hlong : 2 < utf8Len s.res := by
      have h1 := utf8Len_pos (mt (join_eq_nil (c := '\\') hne).mp hnil)
      have h2 := utf8Len_pos hname.1
      have h3 : ('\\' : Char).utf8Size = 1 := by decide
      rw [hres, utf8Len_append, utf8Len_cons, h3]
      omega
    rw [if_pos hlong, hres, rsplitOnce_append (backslash_not_mem hname)]
    exact ⟨⟨hps, rfl, segmentLength_join hps, by simp, rfl⟩, rfl⟩

theorem Holds.concat (h : Holds s parts) {seg : Str} (hseg : IsRootName seg) :
    Holds ⟨(if s.res = [] then [] else s.res ++ ['\\']) ++ seg, utf8Len seg, [], 0⟩ (parts ++ [seg]) := by
  have hnil : s.res = [] ↔ parts = [] := by
    rw [h.res_eq, join_eq_nil fun m hm => (h.names m hm).1]
  refine ⟨forall_mem_append.mpr ⟨h.names, forall_mem_singleton.mpr hseg⟩, ?_, by simp [lastLength], by simp, rfl⟩
  by_cases hp : parts = []
  · subst hp
    simp [hnil]
  · rw [if_neg (mt hnil.mp hp), h.res_eq, join_concat _ hp]
    simp

/-- **A segment's end is a push.** -/
theorem endSegment_holds (h : Holds s parts) :
    Holds (endSegment up s) (pushSegment up parts s.seg) ∧ (endSegment up s).seg = [] := by
  have hdot : s.dots = 1 ↔ s.seg = ['.'] := by
    rw [h.dots_eq]
    exact ⟨eq_replicate_of_dotCount (n := 1), fun heq => by rw [heq]; rfl⟩
  have hdotdot : s.dots = 2 ↔ s.seg = ['.', '.'] := by
    rw [h.dots_eq]
    exact ⟨eq_replicate_of_dotCount (n := 2), fun heq => by rw [heq]; rfl⟩
  have hidle : Holds { s with seg := [], dots := 0 } parts := ⟨h.names, h.res_eq, h.last_eq, by simp, rfl⟩
  simp only [pushSegment, ← hdot, ← hdotdot]
  by_cases hguard : s.seg = [] ∨ s.dots = 1
  · rw [if_pos hguard, endSegment, if_pos hguard]
    exact ⟨hidle, rfl⟩
  rw [if_neg hguard]
  by_cases hdots : s.dots = 2
  · rw [if_pos hdots]
    have hstay (hends : 2 < utf8Len s.res ∨ s.res ≠ [] → 2 ≤ utf8Len s.res ∧ s.lastSegmentLength = 2 ∧ ['.', '.'] <:+ s.res) :
        Holds (endSegment up s) (if up then parts ++ [['.', '.']] else parts) ∧ (endSegment up s).seg = [] := by
      have h1 : ¬ (¬ (2 ≤ utf8Len s.res ∧ s.lastSegmentLength = 2 ∧ ['.', '.'] <:+ s.res) ∧ 2 < utf8Len s.res) :=
        fun hx => hx.1 (hends (.inl hx.2))
      have h2 : ¬ (¬ (2 ≤ utf8Len s.res ∧ s.lastSegmentLength = 2 ∧ ['.', '.'] <:+ s.res) ∧ s.res ≠ []) :=
        fun hx => hx.1 (hends (.inr hx.2))
      rw [endSegment, if_neg hguard, if_pos hdots, if_neg h1, if_neg h2]
      cases up with
      | false => exact ⟨hidle, rfl⟩
      | true =>
        have hpush := h.concat (⟨by simp, Text.forall_mem_of_all rfl⟩ : IsRootName ['.', '.'])
        have htext : (if s.res = [] then [] else s.res ++ ['\\']) ++ ['.', '.'] =
            if s.res = [] then ['.', '.'] else s.res ++ ['\\', '.', '.'] := by
          split
          · rfl
          · simp
        exact ⟨htext ▸ hpush, rfl⟩
    rcases eq_nil_or_concat parts with rfl | ⟨ps, n, rfl⟩
    · have hres : s.res = [] := h.res_eq
      rw [if_neg (by simp)]
      exact hstay fun hx => by simp [hres] at hx
    · rw [concat_eq_append] at h hstay ⊢
      by_cases hn : n = ['.', '.']
      · rw [if_neg (by simp [hn])]
        exact hstay fun _ => h.endsInDotdot.mpr hn
      · rw [if_pos (by simp [hn]), dropLast_concat]
        exact pop_holds up h hn hguard hdots
  · rw [if_neg hdots, endSegment, if_neg hguard, if_neg hdots]
    exact ⟨h.concat ⟨fun hx => hguard (.inl hx), h.seg_no_sep⟩, rfl⟩

/-- The loop over the rest of the text, from registers that hold `parts` and have read `s.seg` of a segment. -/
theorem norm_loop (h : Holds s parts) (t : Str) : ∃ parts', Holds (t.foldl (normStep up) s) parts' ∧
      pushSegment up parts' (t.foldl (normStep up) s).seg = ((s.seg ++ t).splitOnP isSep).foldl (pushSegment up) parts := by
  induction t generalizing s parts with
  | nil =>
    refine ⟨parts, h, ?_⟩
    rw [append_nil, splitOnP_eq_singleton h.seg_no_sep]
    rfl
  | cons c t ih =>
    rw [foldl_cons]
    by_cases hc : isSep c
    · obtain ⟨hend, hnil⟩ := endSegment_holds up h
      obtain ⟨parts', hp, heq⟩ := ih hend
      have hstep : normStep up s c = endSegment up s := by rw [normStep, if_pos hc]
      rw [hstep]
      refine ⟨parts', hp, ?_⟩
      rw [heq, hnil, splitOnP_append_cons s.seg t hc, splitOnP_eq_singleton h.seg_no_sep]
      rfl
    · have hstep : normStep up s c = { s with seg := s.seg ++ [c], dots := dotCount (s.seg ++ [c]) } := by
        rw [normStep, if_neg hc, dotCount_concat, ← h.dots_eq]
        split <;> rfl
      have hseg : ∀ d ∈ s.seg ++ [c], isSep d = false :=
        forall_mem_append.mpr ⟨h.seg_no_sep, forall_mem_singleton.mpr (by simpa using hc)⟩
      obtain ⟨parts', hp, heq⟩ := ih (s := { s with seg := s.seg ++ [c], dots := dotCount (s.seg ++ [c]) })
        ⟨h.names, h.res_eq, h.last_eq, hseg, rfl⟩
      rw [hstep]
      refine ⟨parts', hp, ?_⟩
      rw [heq]
      simp

/-- **The normaliser is a stack** of the segments that are kept, joined. -/
theorem normalizeWin32Tail_stack (path : Str) : (∀ n ∈ (path.splitOnP isSep).foldl (pushSegment up) [], IsRootName n) ∧
    normalizeWin32Tail path up = ['\\'].intercalate ((path.splitOnP isSep).foldl (pushSegment up) []) := by
  obtain ⟨_, hp, heq⟩ := norm_loop up holds_init path
  rw [nil_append] at heq
  obtain ⟨hend, -⟩ := endSegment_holds up hp
  rw [← heq]
  refine ⟨hend.names, ?_⟩
  unfold normalizeWin32Tail
  split
  · -- the last character was a separator: the segment read is empty
    rename_i hlast
    rcases eq_nil_or_concat path with rfl | ⟨q, c, rfl⟩
    · nomatch hlast
    · rw [concat_eq_append] at hp hlast ⊢
      have hc : isSep c := by simpa using hlast
      have hseg : ((q ++ [c]).foldl (normStep up) ⟨[], 0, [], 0⟩).seg = [] := by
        obtain ⟨_, hp0, -⟩ := norm_loop up holds_init q
        rw [foldl_append, foldl_cons, foldl_nil, normStep, if_pos hc]
        exact (endSegment_holds up hp0).2
      rw [hseg]
      exact hp.res_eq
  · exact hend.res_eq

end Stack

/-- **The tail, normalised.**  With no way above the root: the joined names of the location the tail
    denotes. -/
theorem normalizeWin32Tail_eq (path : Str) :
    normalizeWin32Tail path false = ['\\'].intercalate (walk [] (moves isSep path)) := by
  rw [(normalizeWin32Tail_stack false path).2, moves, walk, foldl_map]
  refine congrArg _ ?_
  have hloop (segs : List Str) : ∀ parts : List Str, ['.', '.'] ∉ parts →
      segs.foldl (pushSegment false) parts = segs.foldl (fun loc seg => step loc (classify seg)) parts := by
    induction segs with
    | nil => exact fun _ _ => rfl
    | cons seg segs ih =>
      intro parts hparts
      have hstep : pushSegment false parts seg = step parts (classify seg) := by
        unfold pushSegment classify
        split
        · rfl
        split
        · split
          · rfl
          · rename_i hstay
            -- the top is no `..`, so there is none
            have hnil : parts = [] := by
              by_contra hne
              exact hstay ⟨hne, fun hlast => hparts (mem_of_getLast? hlast)⟩
            rw [hnil]
            rfl
        · rfl
      rw [foldl_cons, foldl_cons, ← hstep]
      refine ih _ fun hmem => ?_
      rw [hstep] at hmem
      rcases mem_walk (show _ ∈ walk _ [classify seg] from hmem) with hmem | hmem
      · exact hparts hmem
      · obtain ⟨rfl, -, -, hne⟩ := classify_eq_down (mem_singleton.mp hmem).symm
        exact hne rfl
  exact hloop _ [] not_mem_nil

theorem normalizeWin32Tail_head (path : Str) (allowAboveRoot : Bool) :
    (normalizeWin32Tail path allowAboveRoot).head? ≠ some '\\' := by
  obtain ⟨hnames, heq⟩ := normalizeWin32Tail_stack allowAboveRoot path
  rw [heq]
  cases hstack : (path.splitOnP isSep).foldl (pushSegment allowAboveRoot) [] with
  | nil => simp
  | cons n ns =>
    rw [hstack] at hnames
    have hn := hnames n mem_cons_self
    obtain ⟨_, htail⟩ := join_append_cons '\\' [] n ns
    rw [nil_append, flatMap_nil, nil_append] at htail
    rw [htail, head?_append_of_ne_nil _ hn.1]
    exact fun hhead => backslash_not_mem hn (mem_of_mem_head? hhead)

/-! ## Roots -/

/-- `X:\…` -/
def IsDriveAbsolute (p : Str) : Prop :=
  ∃ c rest, c.isAlpha = true ∧ p = c :: ':' :: '\\' :: rest

/-- `\\server…`, the server starting with neither `.` nor `?`. -/
def IsUncPath (p : Str) : Prop :=
  ∃ c rest, c ≠ '.' ∧ c ≠ '?' ∧ p = '\\' :: '\\' :: c :: rest

/-- A drive, `X:`. -/
def IsDrive (device : Str) : Prop := ∃ c, c.isAlpha = true ∧ device = [c, ':']

/-- A share, `\\server\share`. -/
def IsShare (device : Str) : Prop :=
  ∃ server share, IsRootName server ∧ IsRootName share ∧ server ≠ ['.'] ∧ server ≠ ['?'] ∧
    device = '\\' :: '\\' :: (server ++ '\\' :: share)

/-- A device root, `\\.` or `\\?`. -/
def IsDeviceRoot (device : Str) : Prop := device = ['\\', '\\', '.'] ∨ device = ['\\', '\\', '?']

theorem takeWhile_isRootName {s : Str} (h : s.takeWhile (fun c => !isSep c) ≠ []) :
    IsRootName (s.takeWhile fun c => !isSep c) :=
  ⟨h, fun c hc => by simpa using mem_takeWhile_imp hc⟩

theorem takeWhile_dropWhile_ne_nil {s : Str} (h : s.dropWhile isSep ≠ []) :
    (s.dropWhile isSep).takeWhile (fun c => !isSep c) ≠ [] := by
  cases hd : s.dropWhile isSep with
  | nil => exact absurd hd h
  | cons c =>
    have hc : isSep c = false := by
      have := head?_dropWhile_not isSep s
      rw [hd] at this
      simpa using this
    simp [hc]

theorem parseUnc_cases (candidate more : Str) : (parseUnc candidate more).isAbsolute ∧
      ((parseUnc candidate more).device = [] ∨ IsShare (parseUnc candidate more).device ∨
        IsDeviceRoot (parseUnc candidate more).device) := by
  unfold parseUnc
  dsimp only
  split
  · exact ⟨rfl, .inl rfl⟩
  rename_i hne
  rw [not_or] at hne
  split
  · rename_i hplain
    refine ⟨rfl, .inr (.inl ⟨_, _, takeWhile_isRootName hne.1,
      takeWhile_isRootName (takeWhile_dropWhile_ne_nil hne.2), hplain.1, hplain.2, rfl⟩)⟩
  · rename_i hdot
    refine ⟨rfl, .inr (.inr ?_)⟩
    rw [not_and_or, not_not, not_not] at hdot
    rcases hdot with h | h
    · exact .inl (by rw [h])
    · exact .inr (by rw [h])

theorem parseRoot_singleton (c : Char) : parseRoot [c] = if isSep c then ⟨[], true, []⟩ else ⟨[], false, [c]⟩ := rfl

theorem parseRoot_cons_cons (c d : Char) (more : Str) : parseRoot (c :: d :: more) = if isSep c then
        if isSep d then parseUnc (c :: d :: more) more else ⟨[], true, d :: more⟩
      else if c.isAlpha && d == ':' then
        match more with
        | e :: rest => if isSep e then ⟨[c, d], true, rest⟩ else ⟨[c, d], false, more⟩
        | [] => ⟨[c, d], false, []⟩
      else ⟨[], false, c :: d :: more⟩ := rfl

theorem parseRoot_cases (candidate : Str) : (parseRoot candidate).device = [] ∨ IsDrive (parseRoot candidate).device ∨
      ((parseRoot candidate).isAbsolute ∧
        (IsShare (parseRoot candidate).device ∨ IsDeviceRoot (parseRoot candidate).device)) := by
  match candidate with
  | [] => exact .inl rfl
  | [c] =>
    rw [parseRoot_singleton]
    split <;> exact .inl rfl
  | c :: d :: more =>
    rw [parseRoot_cons_cons]
    split
    · split
      · obtain ⟨habs, h | h⟩ := parseUnc_cases (c :: d :: more) more
        · exact .inl h
        · exact .inr (.inr ⟨habs, h⟩)
      · exact .inl rfl
    · split
      · rename_i hdrive
        simp only [Bool.and_eq_true, beq_iff_eq] at hdrive
        have hd : IsDrive [c, d] := ⟨c, hdrive.1, by rw [hdrive.2]⟩
        cases more with
        | nil => exact .inr (.inl hd)
        | cons =>
          dsimp only
          split <;> exact .inr (.inl hd)
      · exact .inl rfl

/-! ## The loop -/

/-- What a finished loop can have as its device. -/
def Anchored (device : Str) (absolute : Bool) : Prop :=
  IsDrive device ∨ (absolute = true ∧ (IsShare device ∨ IsDeviceRoot device))

theorem parseRoot_driveAbsolute {c : Char} (hc : c.isAlpha) (rest : Str) :
    parseRoot (c :: ':' :: '\\' :: rest) = ⟨[c, ':'], true, rest⟩ := by
  have hsep : isSep c = false := by
    unfold isSep
    have h1 : c ≠ '/' := by rintro rfl; exact absurd hc (by decide)
    have h2 : c ≠ '\\' := by rintro rfl; exact absurd hc (by decide)
    simp [h1, h2]
  rw [parseRoot_cons_cons, if_neg (by simp [hsep]), if_pos (by simp [hc])]
  rfl

section Loop

variable (mode : Win32ResolveMode) {cwd : Str} (driveCwd : Str → Option Str)

/-- **One argument.** What the loop puts before the argument's own tail does not depend on that tail. -/
theorem resolveLoop_shape (hcwd : IsDriveAbsolute cwd) {d : Str} {a : Bool} (hd : d = [] ∨ Anchored d a) : ∃ D pre A,
    Anchored D A ∧ (pre = [] ∨ ∃ u : Str, pre = u ++ ['\\']) ∧ ∀ p rest, p ≠ [] → parseRoot p = ⟨d, a, rest⟩ →
    resolveLoop mode cwd driveCwd ⟨[], [], false⟩ [p] = ⟨D, pre ++ (rest ++ ['\\']), A⟩ := by
  -- the argument itself
  have hfirst : ∀ p rest, p ≠ [] → parseRoot p = ⟨d, a, rest⟩ → resolveStep ⟨[], [], false⟩ p =
        if a ∧ d ≠ [] then .stop ⟨d, rest ++ ['\\'], a⟩ else .next ⟨d, rest ++ ['\\'], a⟩ := by
    intro p rest hp hroot
    simp [resolveStep, hp, hroot]
  by_cases hstop : a ∧ d ≠ []
  · refine ⟨d, [], a, hd.resolve_left hstop.2, .inl rfl, fun p rest hp hroot => ?_⟩
    rw [resolveLoop, hfirst p rest hp hroot, if_pos hstop]
    rfl
  · -- then the cwd, or the drive's own directory
    have hloop : ∀ p rest, p ≠ [] → parseRoot p = ⟨d, a, rest⟩ → resolveLoop mode cwd driveCwd ⟨[], [], false⟩ [p] =
          match resolveStep ⟨d, rest ++ ['\\'], a⟩ (lastCandidate mode cwd driveCwd d) with
          | .next s => s
          | .stop s => s := by
      intro p rest hp hroot
      rw [resolveLoop, hfirst p rest hp hroot, if_neg hstop]
      rfl
    by_cases hnil : d = []
    · subst hnil
      obtain ⟨c, crest, hc, rfl⟩ := hcwd
      have hdrive : Anchored [c, ':'] true := .inl ⟨c, hc, rfl⟩
      have hroot := parseRoot_driveAbsolute hc crest
      cases a with
      | true =>
        refine ⟨[c, ':'], [], true, hdrive, .inl rfl, fun p rest hp hp' => ?_⟩
        rw [hloop p rest hp hp']
        simp [lastCandidate, resolveStep, hroot]
      | false =>
        refine ⟨[c, ':'], crest ++ ['\\'], true, hdrive, .inr ⟨crest, rfl⟩, fun p rest hp hp' => ?_⟩
        rw [hloop p rest hp hp']
        simp [lastCandidate, resolveStep, hroot]
    · have ha : a = false := by
        cases a with
        | false => rfl
        | true => exact absurd ⟨rfl, hnil⟩ hstop
      subst ha
      have hdrive : IsDrive d := by
        rcases hd.resolve_left hnil with h | ⟨h, -⟩
        · exact h
        · nomatch h
      generalize lastCandidate mode cwd driveCwd d = candidate at hloop
      by_cases hc : candidate = []
      · refine ⟨d, [], false, .inl hdrive, .inl rfl, fun p rest hp hp' => ?_⟩
        rw [hloop p rest hp hp', resolveStep, if_pos hc]
        rfl
      · by_cases hskip : (parseRoot candidate).device ≠ [] ∧ d ≠ [] ∧
          eqIgnoreAsciiCase (parseRoot candidate).device d = false
        · refine ⟨d, [], false, .inl hdrive, .inl rfl, fun p rest hp hp' => ?_⟩
          rw [hloop p rest hp hp', resolveStep, if_neg hc]
          dsimp only
          rw [if_pos hskip]
          rfl
        · refine ⟨d, (parseRoot candidate).rest ++ ['\\'], (parseRoot candidate).isAbsolute,
            .inl hdrive, .inr ⟨_, rfl⟩, fun p rest hp hp' => ?_⟩
          rw [hloop p rest hp hp', resolveStep, if_neg hc]
          dsimp only
          rw [if_neg hskip]
          cases habs : (parseRoot candidate).isAbsolute <;> simp [hnil]

theorem win32ResolveMode_of_absolute {path D tail : Str}
    (hloop : resolveLoop mode cwd driveCwd ⟨[], [], false⟩ [path] = ⟨D, tail, true⟩) :
    win32ResolveMode mode cwd driveCwd path = D ++ '\\' :: ['\\'].intercalate (walk [] (moves isSep tail)) := by
  simp only [win32ResolveMode, win32ResolveAllMode, reverse_singleton, hloop, if_true,
    Bool.not_true, normalizeWin32Tail_eq]

theorem absolute_of_rooted {path : Str} {D pre rest : Str} {A : Bool} (hanch : Anchored D A)
    (hloop : resolveLoop mode cwd driveCwd ⟨[], [], false⟩ [path] = ⟨D, pre ++ (rest ++ ['\\']), A⟩)
    (hform : IsDriveAbsolute (win32ResolveMode mode cwd driveCwd path) ∨
      IsUncPath (win32ResolveMode mode cwd driveCwd path)) :
    A ∧ (IsDrive D ∨ (IsShare D ∧ IsUncPath D)) := by
  have hres : win32ResolveMode mode cwd driveCwd path =
      if A then D ++ '\\' :: normalizeWin32Tail (pre ++ (rest ++ ['\\'])) (!A)
      else if D ++ normalizeWin32Tail (pre ++ (rest ++ ['\\'])) (!A) = [] then ['.']
        else D ++ normalizeWin32Tail (pre ++ (rest ++ ['\\'])) (!A) := by
    simp only [win32ResolveMode, win32ResolveAllMode, reverse_singleton, hloop]
  cases A with
  | false =>
    -- drive-relative: what follows `X:` is no separator
    obtain ⟨c, hc, rfl⟩ : IsDrive D := by
      rcases hanch with h | ⟨h, -⟩
      · exact h
      · nomatch h
    have htail := normalizeWin32Tail_head (pre ++ (rest ++ ['\\'])) true
    rw [hres] at hform
    simp only [Bool.false_eq_true, if_false, Bool.not_false, cons_append, nil_append, reduceCtorEq] at hform
    rcases hform with ⟨d, r, -, he⟩ | ⟨d, r, -, -, he⟩
    · simp only [List.cons.injEq, true_and] at he
      rw [he.2] at htail
      exact absurd rfl htail
    · simp only [List.cons.injEq] at he
      rw [he.1] at hc
      exact absurd hc (by decide)
  | true =>
    have hres' := win32ResolveMode_of_absolute mode driveCwd hloop
    refine ⟨rfl, ?_⟩
    rcases hanch with h | ⟨-, h | h⟩
    · exact .inl h
    · right
      refine ⟨h, ?_⟩
      obtain ⟨server, share, hserver, -, -, -, rfl⟩ := h
      rw [hres'] at hform
      rcases hform with ⟨c, r, hc, he⟩ | ⟨c, r, h1, h2, he⟩
      · simp only [cons_append, List.cons.injEq] at he
        rw [← he.1] at hc
        exact absurd hc (by decide)
      · cases server with
        | nil => exact absurd rfl hserver.1
        | cons s0 ss =>
          simp only [cons_append, List.cons.injEq, true_and] at he
          exact ⟨s0, ss ++ '\\' :: share, he.1 ▸ h1, he.1 ▸ h2, rfl⟩
    · -- a device root is neither
      rw [hres'] at hform
      rcases hform with ⟨c, r, hc, he⟩ | ⟨c, r, h1, h2, he⟩
      · rcases h with rfl | rfl <;> simp only [cons_append, List.cons.injEq] at he <;>
          rw [← he.1] at hc <;> exact absurd hc (by decide)
      · rcases h with rfl | rfl <;> simp only [cons_append, List.cons.injEq, true_and] at he
        · exact absurd he.1.symm h1
        · exact absurd he.1.symm h2

end Loop

/-! ## `p\x` -/

/-- A drive with nothing behind it: its own directory, not its root. -/
def IsBareDrive (p : Str) : Prop := ∃ c, c.isAlpha = true ∧ p = [c, ':']

/-- Two separators, a name and separators: a server with no share, which is no root — until a share
    follows. -/
def IsServerOnly (p : Str) : Prop :=
  ∃ c d name seps, isSep c = true ∧ isSep d = true ∧ IsRootName name ∧ (∀ s ∈ seps, isSep s = true) ∧
    p = c :: d :: (name ++ seps)

theorem walk_moves_child {x : Str} (hx : IsName isSep x) (rest : Str) (loc : List Str) :
    walk loc (moves isSep (rest ++ '\\' :: x)) = walk loc (moves isSep rest) ++ [x] := by
  have hsep : isSep '\\' := by decide
  rw [moves_append_cons hsep, walk_append, moves_of_no_sep hx.no_sep, classify_of_isName hx]
  rfl

/-- A name ends at a separator, so it does not depend on what follows one. -/
theorem takeWhile_append_sep (l x : Str) : (l ++ '\\' :: x).takeWhile (fun c => !isSep c) = l.takeWhile
    (fun c => !isSep c) ∧ (l ++ '\\' :: x).dropWhile (fun c => !isSep c) = l.dropWhile (fun c => !isSep c) ++ '\\' ::
    x := by
  have hsep : isSep '\\' := by decide
  induction l with
  | nil => simp [hsep]
  | cons c l ih =>
    by_cases hc : isSep c
    · simp [hc]
    · simp [hc, ih.1, ih.2]

theorem dropWhile_append_cons_of_ne_nil {q : Char → Bool} {l : Str} (h : l.dropWhile q ≠ [])
    (m : Str) : (l ++ m).dropWhile q = l.dropWhile q ++ m := by
  rw [dropWhile_append, if_neg (by simpa using h)]

theorem parseUnc_append {c d : Char} {more : Str} (x : Str) (hshare : more.takeWhile (fun c => !isSep c) ≠ [] →
      (more.dropWhile fun c => !isSep c).dropWhile isSep ≠ []) :
    parseUnc (c :: d :: (more ++ '\\' :: x)) (more ++ '\\' :: x) =
      { parseUnc (c :: d :: more) more with rest := (parseUnc (c :: d :: more) more).rest ++ '\\' :: x } := by
  obtain ⟨htake, hdrop⟩ := takeWhile_append_sep more x
  by_cases hfirst : more.takeWhile (fun c => !isSep c) = []
  · simp only [parseUnc, htake, hfirst, true_or, if_true, cons_append]
  have hrest := hshare hfirst
  obtain ⟨htake', hdrop'⟩ := takeWhile_append_sep ((more.dropWhile fun c => !isSep c).dropWhile isSep) x
  simp only [parseUnc, htake, hdrop, dropWhile_append_cons_of_ne_nil hrest, htake', hdrop', hfirst, hrest,
    append_eq_nil_iff, false_and, or_self, if_false]
  split
  · rfl
  have hlen : 2 ≤ more.length := by
    have h1 := congrArg List.length (takeWhile_append_dropWhile (p := fun c => !isSep c) (l := more))
    have h2 := length_pos_iff.mpr hfirst
    have h3 : 0 < (more.dropWhile fun c => !isSep c).length :=
      length_pos_iff.mpr fun he => hrest (by rw [he]; rfl)
    rw [length_append] at h1
    omega
  rw [drop_succ_cons, drop_succ_cons, drop_append_of_le_length hlen]
  rfl

/-- **The root of `p\x` is the root of `p`**, and the text after it goes on with `x`. -/
theorem parseRoot_child {p x : Str} (hp : p ≠ []) (hx : IsName isSep x) (hbare : ¬ IsBareDrive p)
    (hserver : ¬ IsServerOnly p) :
    ∃ rest', parseRoot (p ++ '\\' :: x) = ⟨(parseRoot p).device, (parseRoot p).isAbsolute, rest'⟩ ∧
      ∀ loc, walk loc (moves isSep rest') = walk loc (moves isSep (parseRoot p).rest) ++ [x] := by
  have hsep : isSep '\\' := by decide
  suffices h : (∃ c, isSep c ∧ p = [c]) ∨
      parseRoot (p ++ '\\' :: x) = { parseRoot p with rest := (parseRoot p).rest ++ '\\' :: x } by
    rcases h with ⟨c, hc, rfl⟩ | h
    · -- `\` and `\\x`: both name the root of the cwd's drive, and then `x`
      have hdrop : x.dropWhile (fun c => !isSep c) = [] :=
        dropWhile_eq_nil_iff.mpr fun d hd => by simp [hx.no_sep d hd]
      refine ⟨c :: '\\' :: x, ?_, fun loc => ?_⟩
      · rw [parseRoot_singleton, singleton_append, parseRoot_cons_cons]
        simp only [hc, hsep, if_true, parseUnc, hdrop, dropWhile_nil, or_true]
      · rw [parseRoot_singleton, if_pos hc, moves_cons_sep hc, walk_cons, step]
        exact walk_moves_child hx [] loc
    · exact ⟨_, h, walk_moves_child hx _⟩
  rcases p with _ | ⟨c, _ | ⟨d, more⟩⟩
  · exact absurd rfl hp
  · by_cases hc : isSep c
    · exact .inl ⟨c, hc, rfl⟩
    · right
      rw [parseRoot_singleton, singleton_append, parseRoot_cons_cons, if_neg hc, if_neg hc]
      simp
  · right
    rw [cons_append, cons_append, parseRoot_cons_cons, parseRoot_cons_cons]
    by_cases hc : isSep c
    · rw [if_pos hc, if_pos hc]
      by_cases hd : isSep d
      · rw [if_pos hd, if_pos hd]
        refine parseUnc_append x fun hfirst hrest => hserver ⟨c, d, _, _, hc, hd, takeWhile_isRootName hfirst, ?_,
          by rw [takeWhile_append_dropWhile]⟩
        exact dropWhile_eq_nil_iff.mp hrest
      · rw [if_neg hd, if_neg hd]
        rfl
    · rw [if_neg hc, if_neg hc]
      by_cases hdrive : (c.isAlpha && d == ':')
      · rw [if_pos hdrive, if_pos hdrive]
        cases more with
        | nil =>
          simp only [Bool.and_eq_true, beq_iff_eq] at hdrive
          exact absurd ⟨c, hdrive.1, by rw [hdrive.2]⟩ hbare
        | cons =>
          dsimp only [cons_append]
          split <;> rfl
      · rw [if_neg hdrive, if_neg hdrive]
        rfl

/-! ## Resolving, as a whole -/

/-- A location: a drive or a share, and names. -/
structure IsLocation (D : Str) (L : List Str) : Prop where
  device : IsDrive D ∨ (IsShare D ∧ IsUncPath D)
  names : ∀ n ∈ L, IsName isSep n

def locationText (D : Str) (L : List Str) : Str := D ++ '\\' :: ['\\'].intercalate L

/-- **Resolving.** A drive-absolute or UNC result is the text of a location, and `p\x` leads to the name `x` in it. -/
theorem win32ResolveMode_location (mode : Win32ResolveMode) {cwd : Str}
    (driveCwd : Str → Option Str) (hcwd : IsDriveAbsolute cwd) {p : Str} (hp : p ≠ [])
    (hform : IsDriveAbsolute (win32ResolveMode mode cwd driveCwd p) ∨
      IsUncPath (win32ResolveMode mode cwd driveCwd p)) :
    ∃ D L, IsLocation D L ∧ win32ResolveMode mode cwd driveCwd p = locationText D L ∧
      ∀ x, IsName isSep x → ¬ IsBareDrive p → ¬ IsServerOnly p →
        win32ResolveMode mode cwd driveCwd (p ++ '\\' :: x) = locationText D (L ++ [x]) := by
  obtain ⟨D, pre, A, hanch, hpre, hshape⟩ :=
    resolveLoop_shape mode driveCwd hcwd ((parseRoot_cases p).imp id id)
  have hloop := hshape p _ hp rfl
  obtain ⟨rfl, hdev⟩ := absolute_of_rooted mode driveCwd hanch hloop hform
  -- the walk over what the loop put before the argument's own tail
  have hsep : isSep '\\' := by decide
  have hwalk : ∀ rest, walk [] (moves isSep (pre ++ (rest ++ ['\\']))) =
      walk (walk [] (moves isSep pre)) (moves isSep rest) := by
    intro rest
    have hend : ∀ loc, walk loc (moves isSep (rest ++ ['\\'])) = walk loc (moves isSep rest) := by
      intro loc
      rw [moves_append_cons hsep, walk_append]
      simp [step]
    rcases hpre with rfl | ⟨u, rfl⟩
    · rw [nil_append, hend]
      simp [step]
    · rw [append_assoc, singleton_append, moves_append_cons hsep, walk_append, hend,
        moves_append_cons hsep, walk_append]
      simp [step]
  refine ⟨D, walk [] (moves isSep (pre ++ ((parseRoot p).rest ++ ['\\']))), ⟨hdev, ?_⟩,
    win32ResolveMode_of_absolute mode driveCwd hloop, ?_⟩
  · exact isName_of_mem_walk fun _ hm => absurd hm not_mem_nil
  · intro x hx hbare hserver
    obtain ⟨rest', hroot, hchild⟩ := parseRoot_child hp hx hbare hserver
    have hloop' := hshape (p ++ '\\' :: x) rest' (by simp) hroot
    rw [win32ResolveMode_of_absolute mode driveCwd hloop', hwalk, hwalk, hchild]
    rfl

theorem parseRoot_locationText {D : Str} {L : List Str} (h : IsLocation D L) : ∃ rest, parseRoot (locationText D L) =
    ⟨D, true, rest⟩ ∧ walk [] (moves isSep (rest ++ ['\\'])) = L := by
  have hsep : isSep '\\' := by decide
  have hjoin : walk [] (moves isSep (['\\'].intercalate L ++ ['\\'])) = L := by
    rw [moves_append_cons hsep, walk_append, walk_moves_join [] hsep L h.names]
    simp [step]
  rcases h.device with ⟨c, hc, rfl⟩ | ⟨⟨server, share, hserver, hshare, h1, h2, rfl⟩, -⟩
  · exact ⟨_, parseRoot_driveAbsolute hc _, hjoin⟩
  · have hroot : ∀ (n y : Str), IsRootName n → (n ++ '\\' :: y).takeWhile (fun c => !isSep c) = n ∧
          (n ++ '\\' :: y).dropWhile (fun c => !isSep c) = '\\' :: y := by
      intro n y hn
      obtain ⟨ht, hd⟩ := takeWhile_append_sep n y
      have hall : ∀ c ∈ n, (!isSep c) := fun c hc => by simp [hn.2 c hc]
      rw [ht, hd, takeWhile_eq_self_iff.mpr hall, dropWhile_eq_nil_iff.mpr hall]
      exact ⟨rfl, rfl⟩
    have htext : locationText ('\\' :: '\\' :: (server ++ '\\' :: share)) L =
        '\\' :: '\\' :: (server ++ '\\' :: (share ++ '\\' :: ['\\'].intercalate L)) := by
      simp [locationText]
    obtain ⟨s1, s2⟩ := hroot server (share ++ '\\' :: ['\\'].intercalate L) hserver
    obtain ⟨s3, s4⟩ := hroot share (['\\'].intercalate L) hshare
    have hskip : ('\\' :: (share ++ '\\' :: ['\\'].intercalate L)).dropWhile isSep =
        share ++ '\\' :: ['\\'].intercalate L := by
      rw [dropWhile_cons_of_pos hsep]
      cases share with
      | nil => exact absurd rfl hshare.1
      | cons c =>
        rw [cons_append, dropWhile_cons_of_neg]
        simp [hshare.2 c (mem_cons_self ..)]
    refine ⟨'\\' :: ['\\'].intercalate L, ?_, ?_⟩
    · rw [htext, parseRoot_cons_cons, if_pos hsep, if_pos hsep]
      simp only [parseUnc, s1, s2, hskip, s3, s4, hserver.1, h1, h2, false_or, ne_eq,
        append_eq_nil_iff, reduceCtorEq, and_false, if_false, not_false_eq_true, and_self,
        if_true]
    · rw [cons_append, moves_cons_sep hsep, walk_cons]
      exact hjoin

/-- **A location's text resolves to itself**, whatever the cwd. -/
theorem win32ResolveMode_locationText (mode : Win32ResolveMode) (cwd : Str) (driveCwd : Str → Option Str) {D : Str}
    {L : List Str} (h : IsLocation D L) : win32ResolveMode mode cwd driveCwd (locationText D L) = locationText D L := by
  obtain ⟨rest, hroot, hwalk⟩ := parseRoot_locationText h
  have hD : D ≠ [] := by
    rcases h.device with ⟨c, -, rfl⟩ | ⟨⟨_, _, -, -, -, -, rfl⟩, -⟩ <;> simp
  have hne : locationText D L ≠ [] := by simp [locationText]
  have hloop : resolveLoop mode cwd driveCwd ⟨[], [], false⟩ [locationText D L] = ⟨D, rest ++ ['\\'], true⟩ := by
    simp [resolveLoop, resolveStep, hne, hroot, hD]
  rw [win32ResolveMode_of_absolute mode driveCwd hloop, hwalk]
  rfl

end Oam.Win32
