/-
  What an update can put in place.  The staged file holds what was hashed (`Staging`), and only the staged bytes get to
  the target, or the old ones back (`Held`).
-/
import Oam.SelfUpdate.Run

namespace Oam.SelfUpdate

open Option List Text Decimal Act

/-! ## Paths -/

def dots (s : Str) : Nat := (s.takeWhile (· = '.')).length

theorem dots_cons_dot (s : Str) : dots ('.' :: s) = dots s + 1 := by
  simp [dots]

theorem dots_append (name rest rest' : Str) {ch ch' : Char} (h : ch ≠ '.') (h' : ch' ≠ '.') :
    dots (name ++ '.' :: ch :: rest) = dots (name ++ '.' :: ch' :: rest') := by
  induction name with
  | nil => simp [dots, h, h']
  | cons d name ih =>
    by_cases hd : d = '.'
    · subst hd
      rw [cons_append, cons_append, dots_cons_dot, dots_cons_dot, ih]
    · simp [dots, hd]

section
variable {env : Env} {dir : Path} {last : Str}

theorem stagedPath_eq : stagedPath env (dir ++ [last]) =
    if last = ['.', '.'] then dir ++ [last] ++ ['.' :: ("oam".toList ++ ".update-".toList ++ decimal env.pid)]
    else dir ++ ['.' :: (last ++ ".update-".toList ++ decimal env.pid)] := by
  have hlast : (dir ++ [last]).getLast? = some last := by simp
  unfold stagedPath Path.withFileName Path.fileName
  rw [hlast]
  by_cases h : last = ['.', '.']
  · simp [h, Option.filter]
  · simp [h, Option.filter]

theorem backupPath_eq : backupPath env (dir ++ [last]) =
    dir ++ [last ++ (".old-".toList ++ decimal env.pid ++ '-' :: decimal env.secs)] := by
  unfold backupPath Path.push
  simp [getLastD_eq_getLast?]

theorem ne_of_last_ne {dir : Path} {a b : Str} (h : a ≠ b) : dir ++ [a] ≠ dir ++ [b] := by
  intro heq
  exact h (List.cons.inj (append_cancel_left heq)).1

theorem stagedPath_ne_target : stagedPath env (dir ++ [last]) ≠ dir ++ [last] := by
  rw [stagedPath_eq]
  by_cases h : last = ['.', '.']
  · rw [if_pos h]
    exact ne_of_apply_ne List.length (by simp)
  · rw [if_neg h]
    exact ne_of_last_ne (ne_of_apply_ne List.length (by simp; omega))

theorem staged_ne_suffix {name rest rest' : Str} {ch ch' : Char} (h : ch ≠ '.') (h' : ch' ≠ '.') :
    '.' :: (name ++ '.' :: ch :: rest) ≠ name ++ '.' :: ch' :: rest' := by
  intro heq
  have hdots := congrArg dots heq
  rw [dots_cons_dot, dots_append name rest rest' h h'] at hdots
  omega

theorem backupPath_ne_stagedPath : backupPath env (dir ++ [last]) ≠ stagedPath env (dir ++ [last]) := by
  rw [backupPath_eq, stagedPath_eq]
  by_cases h : last = ['.', '.']
  · rw [if_pos h]
    exact ne_of_apply_ne List.length (by simp)
  rw [if_neg h]
  refine ne_of_last_ne (Ne.symm ?_)
  have hne : 'u' ≠ '.' ∧ 'o' ≠ '.' := by decide
  rw [append_assoc]
  exact staged_ne_suffix hne.1 hne.2

theorem fileName_concat {name : Str} (h : Path.fileName (dir ++ [last]) = some name) : last = name ∧ name ≠ ['.', '.'] := by
  rw [Path.fileName, getLast?_concat, filter_eq_some_iff] at h
  exact ⟨some.inj h.1, of_decide_eq_true h.2⟩

theorem isBackup_target : isBackup (dir ++ [last]) (dir ++ [last]) = false := by
  unfold isBackup
  cases hname : Path.fileName (dir ++ [last]) with
  | none => rfl
  | some name =>
    have hdrop : last.dropPrefix? name = some [] := by
      rw [(fileName_concat hname).1, dropPrefix?_eq_some, append_nil]
    have hempty : isBackupSuffix [] = false := by decide +kernel
    rw [getLast?_concat]
    simp [hdrop, hempty]

theorem exists_of_isBackupSuffix {rest : Str} (h : isBackupSuffix rest) :
    ∃ rest', rest = '.' :: 'o' :: rest' := by
  unfold isBackupSuffix at h
  rw [Bool.or_eq_true] at h
  rcases h with h | h
  · exact ⟨"ld".toList, by rw [beq_iff_eq.mp h]; rfl⟩
  · cases hdrop : rest.dropPrefix? ".old-".toList with
    | none =>
      rw [hdrop] at h
      cases h
    | some r =>
      rw [dropPrefix?_eq_some] at hdrop
      exact ⟨"ld-".toList ++ r, by rw [hdrop]; rfl⟩

theorem isBackup_stagedPath : isBackup (dir ++ [last]) (stagedPath env (dir ++ [last])) = false := by
  rw [Bool.eq_false_iff]
  intro h
  unfold isBackup at h
  cases hname : Path.fileName (dir ++ [last]) with
  | none =>
    rw [hname] at h
    cases h
  | some =>
    obtain ⟨rfl, hdotdot⟩ := fileName_concat hname
    rw [hname, stagedPath_eq, if_neg hdotdot, getLast?_append, getLast?_singleton, some_or] at h
    dsimp only at h
    rw [Bool.and_eq_true] at h
    cases hdrop : ('.' :: (last ++ ".update-".toList ++ decimal env.pid)).dropPrefix? last with
    | none =>
      rw [hdrop] at h
      cases h.2
    | some =>
      rw [hdrop, any_some] at h
      obtain ⟨rest', rfl⟩ := exists_of_isBackupSuffix h.2
      rw [dropPrefix?_eq_some, append_assoc] at hdrop
      have hne : 'u' ≠ '.' ∧ 'o' ≠ '.' := by decide
      exact staged_ne_suffix hne.1 hne.2 hdrop

end

/-! ## Requests -/

abbrev Keeps {α : Type} (P : World → Prop) (x : Action α) : Prop := Spec P x (fun _ => P) (fun _ => P)

/-- It does not depend on the number of calls. -/
def Blind (P : World → Prop) : Prop := ∀ w n, P w → P { w with calls := n }

section
variable {env : Env} {P : World → Prop} {α β : Type}

theorem Keeps.bind {x : Action α} {f : α → Action β} (hx : Keeps P x) (hf : ∀ a, Keeps P (f a)) : Keeps P (x >>= f) :=
  Spec.bind hx hf

theorem Keeps.pure (a : α) : Keeps P (pure a : Action α) := Spec.pure fun _ h => h

theorem Keeps.fail (e : String) : Keeps P (fail e : Action α) := Spec.fail fun _ h => h

theorem Keeps.lift (r : Except String α) : Keeps P (lift r : Action α) :=
  Spec.lift (fun _ _ _ h => h) (fun _ _ _ h => h)

theorem keeps_send (hP : Blind P) (url : Str) : Keeps P (send env url) := by
  have hfrom : ∀ attempts last, Keeps P (sendFrom env url attempts last) := by
    intro attempts
    induction attempts with
    | zero => exact fun last => .fail last
    | succ attempts ih =>
      intro last
      refine Keeps.bind (Spec.update fun w h => hP w _ h) ?_
      intro answer
      cases classify url answer with
      | inl result => exact .lift result
      | inr last => exact ih last
  exact hfrom 2 ""

theorem keeps_get (hP : Blind P) (url : Str) (cap : Nat) : Keeps P (get env url cap) := by
  refine (keeps_send hP url).bind ?_
  intro response
  cases response with
  | none => exact .pure none
  | some => exact .lift _

theorem keeps_syscall (hP : Blind P) (message : String) : Keeps P (syscall env message) := by
  refine Keeps.bind (Spec.update fun w h => hP w _ h) ?_
  intro fault
  exact Spec.ite (fun _ => Keeps.fail message) (fun _ => Keeps.pure ())

variable {Key Sig : Type} {c : Crates Key Sig} {trust : TrustRoot Key} {req : Request}

theorem keeps_resolveTag (hP : Blind P) : Keeps P (resolveTag env c req) := by
  unfold resolveTag
  cases req.pinned with
  | some t => exact .pure t
  | none =>
    cases req.assetBase with
    | some => exact .fail _
    | none =>
      refine (keeps_send hP _).bind ?_
      intro response
      cases response with
      | none => exact .fail _
      | some => exact .lift _

/-- **The lines that are used were vouched for**, and nothing else happened. -/
theorem verifiedSums_spec {Signed : Key → Str → Bytes → Prop}
    (hunforgeable : ∀ key name message sig, c.verify key name message sig = .ok () → Signed key name message)
    (hwell : WellFormed trust) (hP : Blind P) (tag : Tag) (base : Str) :
    Spec P (verifiedSums env c trust tag base) (fun sums w => P w ∧ Vouched c Signed trust tag sums) (fun _ => P) := by
  refine Spec.ite (fun _ => ?_) (fun hcutoff => ?_)
  · refine Spec.bind (keeps_get hP _ _) ?_
    intro sums
    cases sums with
    | none => exact Spec.fail fun _ h => h
    | some sums =>
      refine Spec.lift ?_ (fun _ _ _ h => h)
      intro out hout w hw
      cases hverify : trust.verifyPresigning c tag sums with
      | error =>
        rw [hverify] at hout
        cases hout
      | ok =>
        rw [hverify] at hout
        cases hout
        exact ⟨hw, vouched_of_presigning hwell hverify⟩
  · refine Spec.bind (keeps_get hP _ _) ?_
    intro m
    refine Spec.bind (keeps_get hP _ _) ?_
    intro sig
    cases m with
    | none =>
      refine Spec.bind (keeps_get hP _ _) ?_
      intro sums
      exact Spec.fail fun _ h => h
    | some m =>
      cases sig with
      | none => exact Spec.fail fun _ h => h
      | some sig =>
        refine Spec.lift ?_ (fun _ _ _ h => h)
        intro out hout w hw
        cases hverify : trust.verifyManifest c m sig tag with
        | error =>
          rw [hverify] at hout
          cases hout
        | ok =>
          rw [hverify] at hout
          cases hout
          exact ⟨hw, vouched_of_manifest hunforgeable hwell hcutoff hverify⟩

end

/-! ## The download -/

theorem setFile_self (files : Path → Option Bytes) (p : Path) (bytes : Option Bytes) : setFile files p bytes p = bytes :=
  if_pos rfl

theorem setFile_of_ne (files : Path → Option Bytes) {p q : Path} (bytes : Option Bytes) (h : q ≠ p) :
    setFile files p bytes q = files q :=
  if_neg h

section
variable {env : Env} {files₀ : Path → Option Bytes} {target staged backup : Path}

structure Staging (files₀ : Path → Option Bytes) (staged : Path) (bytes : Bytes) (w : World) : Prop where
  holds : w.files staged = some bytes
  others : ∀ p, p ≠ staged → w.files p = files₀ p
  placed : w.placed = []
  attempted : w.attempted = false

theorem Staging.blind (bytes : Bytes) : Blind (Staging files₀ staged bytes) :=
  fun _ _ h => ⟨h.holds, h.others, h.placed, h.attempted⟩

theorem writeAll_spec (hashed chunk : Bytes) : Spec (Staging files₀ staged hashed) (writeAll env staged chunk)
    (fun _ => Staging files₀ staged (hashed ++ chunk)) (fun _ w => ∃ bytes, Staging files₀ staged bytes w) := by
  have hwrite : Spec (Staging files₀ staged hashed)
      (.update fun w => (env.fault w.calls, { w with
          calls := w.calls + 1
          files := setFile w.files staged ((w.files staged).map (· ++ written (env.fault w.calls) chunk)) }) :
        Action (Option Nat))
      (fun fault => Staging files₀ staged (hashed ++ written fault chunk))
      (fun _ w => ∃ bytes, Staging files₀ staged bytes w) := by
    refine Spec.update ?_
    intro w h
    refine ⟨?_, ?_, h.placed, h.attempted⟩
    · dsimp only
      rw [setFile_self, h.holds]
      rfl
    · intro p hp
      dsimp only
      rw [setFile_of_ne _ _ hp]
      exact h.others p hp
  refine Spec.bind hwrite ?_
  intro fault
  cases fault with
  | none => exact Spec.pure fun _ h => h
  | some => exact Spec.fail fun _ h => ⟨_, h⟩

/-- **What is hashed is what is in the staged file.** -/
theorem downloadChunks_spec (url : Str) (broken : Option String) (chunks : List Bytes) (hashed : Bytes) :
    Spec (Staging files₀ staged hashed) (downloadChunks env url staged broken chunks hashed)
      (fun out => Staging files₀ staged out) (fun _ w => ∃ bytes, Staging files₀ staged bytes w) := by
  induction chunks generalizing hashed with
  | nil =>
    unfold downloadChunks
    cases broken with
    | none => exact Spec.pure fun _ h => h
    | some => exact Spec.fail fun _ h => ⟨_, h⟩
  | cons chunk rest ih =>
    rw [downloadChunks]
    refine Spec.ite (fun _ => Spec.fail fun _ h => ⟨_, h⟩) (fun _ => ?_)
    refine Spec.bind (writeAll_spec hashed chunk) ?_
    intro _
    exact ih (hashed ++ chunk)

theorem download_spec {Key Sig : Type} {c : Crates Key Sig} (url : Str) : Spec (Staging files₀ staged [])
    (download env c url staged) (fun digest w => ∃ bytes, Staging files₀ staged bytes w ∧ digest = c.sha256 bytes)
    (fun _ w => ∃ bytes, Staging files₀ staged bytes w) := by
  refine Spec.bind ((keeps_send (Staging.blind []) url).stops fun _ _ h => ⟨_, h⟩) ?_
  intro response
  cases response with
  | none => exact Spec.fail fun _ h => ⟨_, h⟩
  | some r =>
    refine Spec.bind (downloadChunks_spec url r.broken r.chunks []) ?_
    intro hashed
    exact Spec.pure fun _ h => ⟨hashed, h, rfl⟩

/-! ## The replacement -/

/-- Ready to be put in place: the staged bytes, and the target as it was. -/
structure Ready (files₀ : Path → Option Bytes) (target staged : Path) (bytes : Bytes) (w : World) : Prop where
  holds : w.files staged = some bytes
  same : w.files target = files₀ target
  placed : w.placed = []
  attempted : w.attempted = false

structure Kept (env : Env) (files₀ : Path → Option Bytes) (target backup : Path) (w : World) : Prop where
  old : (files₀ target).isSome = true → w.files backup = files₀ target
  same : w.files target = files₀ target ∨ env.windows = true ∧ w.files target = none
  placed : w.placed = []

/-- **What the target can hold** once the replacement is over: what was placed there, or what was there before. -/
structure Left (env : Env) (files₀ : Path → Option Bytes) (target : Path) (good : Bytes → Prop) (w : World) : Prop where
  placed : ∀ bytes ∈ w.placed, good bytes
  unchanged : w.placed = [] → w.attempted = false ∨ env.windows = false → w.files target = files₀ target
  content : ∀ bytes, w.files target = some bytes → bytes ∈ w.placed ∨ files₀ target = some bytes

variable (hst : staged ≠ target) (hbt : backup ≠ target) (hbs : backup ≠ staged) {bytes : Bytes}

theorem Ready.blind : Blind (Ready files₀ target staged bytes) := fun _ _ h => ⟨h.holds, h.same, h.placed, h.attempted⟩

theorem Kept.blind : Blind (Kept env files₀ target backup) := fun _ _ h => ⟨h.old, h.same, h.placed⟩

variable {w : World}

theorem files_removeBackup {p : Path} (hp : backup ≠ p) : (removeBackup env backup w).files p = w.files p := by
  unfold removeBackup
  dsimp only
  split
  · rfl
  · exact setFile_of_ne _ _ hp.symm

include hbt hbs in
theorem Ready.removeBackup (h : Ready files₀ target staged bytes w) :
    Ready files₀ target staged bytes (removeBackup env backup w) :=
  ⟨(files_removeBackup hbs).trans h.holds, (files_removeBackup hbt).trans h.same, h.placed, h.attempted⟩

theorem rename_spec {P : World → Prop} (hP : Blind P) {Q : Unit → World → Prop} {src dst : Path} {message : String}
    (h : ∀ w bytes, P w → w.files src = some bytes →
      Q () { w with files := setFile (setFile w.files src none) dst (some bytes) }) :
    Spec P (rename env src dst message) Q (fun _ => P) := by
  refine Spec.bind (keeps_syscall hP message) ?_
  intro _
  refine Spec.bind (Q := fun bytes w => P w ∧ w.files src = bytes) (Spec.update fun w hw => ⟨hw, rfl⟩) ?_
  intro bytes
  cases bytes with
  | none => exact Spec.fail fun _ hw => hw.1
  | some bytes => exact Spec.update fun w hw => h w bytes hw.1 hw.2

theorem copy_spec {P : World → Prop} (hP : Blind P) {Q : Unit → World → Prop} {src dst : Path} {message : String}
    (h : ∀ w, P w → Q () { w with files := setFile w.files dst (w.files src) }) :
    Spec P (copy env src dst message) Q (fun _ => P) := by
  refine Spec.bind (keeps_syscall hP message) ?_
  intro _
  exact Spec.update h

variable {hadOld : Bool}

include hst hbt hbs in
/-- **The old binary is kept** before the new one is moved; if that fails nothing has changed. -/
theorem keepOld_spec (hold : hadOld = (files₀ target).isSome) : Spec (Ready files₀ target staged bytes)
    (keepOld env target backup hadOld) (fun _ w => Kept env files₀ target backup w ∧ w.files staged = some bytes)
    (fun _ => Ready files₀ target staged bytes) := by
  have hcopied : ∀ w, Ready files₀ target staged bytes w →
      Kept env files₀ target backup { w with files := setFile w.files backup (w.files target) } ∧
        setFile w.files backup (w.files target) staged = some bytes := by
    intro w h
    refine ⟨⟨fun _ => (setFile_self _ _ _).trans h.same, .inl ?_, h.placed⟩, ?_⟩
    · exact (setFile_of_ne _ _ hbt.symm).trans h.same
    · rw [setFile_of_ne _ _ hbs.symm]
      exact h.holds
  refine Spec.ite (fun hhad => Spec.ite (fun hwindows => ?_) (fun _ => ?_)) (fun hhad => ?_)
  · refine rename_spec Ready.blind ?_
    intro w old h hw
    refine ⟨⟨fun _ => ?_, .inr ⟨hwindows, ?_⟩, h.placed⟩, ?_⟩
    · dsimp only
      rw [setFile_self, ← hw]
      exact h.same
    · dsimp only
      rw [setFile_of_ne _ _ hbt.symm, setFile_self]
    · dsimp only
      rw [setFile_of_ne _ _ hbs.symm, setFile_of_ne _ _ hst]
      exact h.holds
  · -- a link, or else a copy
    have hlink : Spec (Ready files₀ target staged bytes) (hardLink env target backup)
        (fun _ w => Kept env files₀ target backup w ∧ w.files staged = some bytes)
        (fun _ => Ready files₀ target staged bytes) := by
      refine Spec.bind (Q := fun _ => Ready files₀ target staged bytes) (Spec.update fun _ h => h) ?_
      intro taken
      exact Spec.ite (fun _ => Spec.fail fun _ h => h) (fun _ => copy_spec Ready.blind hcopied)
    exact Spec.attempt_bind hlink (fun _ => Spec.pure fun _ h => h) (fun _ => copy_spec Ready.blind hcopied)
  · refine Spec.pure ?_
    intro w h
    refine ⟨⟨fun hsome => ?_, .inl h.same, h.placed⟩, h.holds⟩
    rw [← hold] at hsome
    exact absurd hsome hhad

structure Placed (files₀ : Path → Option Bytes) (target backup : Path) (bytes : Bytes) (w : World) : Prop where
  old : (files₀ target).isSome = true → w.files backup = files₀ target
  holds : w.files target = some bytes
  placed : w.placed = [bytes]

theorem Placed.blind : Blind (Placed files₀ target backup bytes) := fun _ _ h => ⟨h.old, h.holds, h.placed⟩

include hbs hbt in
theorem place_spec : Spec (fun w => Kept env files₀ target backup w ∧ w.files staged = some bytes)
    (place env staged target) (fun _ => Placed files₀ target backup bytes)
    (fun _ w => Kept env files₀ target backup w ∧ w.attempted) := by
  refine Spec.bind (Q := fun _ w => (Kept env files₀ target backup w ∧ w.attempted) ∧ w.files staged = some bytes)
    (Spec.update fun w h => ⟨⟨⟨h.1.old, h.1.same, h.1.placed⟩, rfl⟩, h.2⟩) ?_
  intro _
  refine Spec.bind (Q := fun out w => (Kept env files₀ target backup w ∧ w.attempted) ∧
    w.files staged = some bytes ∧ out = some bytes) (Spec.update fun w h => ⟨h.1, h.2, h.2⟩) ?_
  intro out
  refine Spec.bind (Q := fun _ w => ((files₀ target).isSome → w.files backup = files₀ target) ∧
    w.files target = some bytes ∧ w.placed = [] ∧ out = some bytes) ?_ ?_
  · refine (rename_spec ?_ ?_).stops (fun _ _ h => h.1)
    · exact fun w n h => ⟨⟨h.1.1.blind w n, h.1.2⟩, h.2⟩
    · intro w moved h hw
      rw [h.2.1, some.injEq] at hw
      subst hw
      refine ⟨fun hsome => ?_, setFile_self _ _ _, h.1.1.placed, h.2.2⟩
      dsimp only
      rw [setFile_of_ne _ _ hbt, setFile_of_ne _ _ hbs]
      exact h.1.1.old hsome
  · intro _
    refine Spec.update ?_
    intro w h
    refine ⟨h.1, h.2.1, ?_⟩
    dsimp only
    rw [h.2.2.1, h.2.2.2]
    rfl

variable {good : Bytes → Prop}

theorem Left.of_kept (h : Kept env files₀ target backup w) (hattempted : w.attempted) :
    Left env files₀ target good w := by
  constructor
  · intro b hb
    rw [h.placed] at hb
    cases hb
  · intro _ hcase
    rcases h.same with hsame | ⟨hwindows, -⟩
    · exact hsame
    · rw [hattempted, hwindows] at hcase
      simp at hcase
  · intro b hb
    rcases h.same with hsame | ⟨-, hnone⟩
    · exact .inr (hsame ▸ hb)
    · rw [hnone] at hb
      cases hb

theorem Left.of_same (hsame : w.files target = files₀ target) (hplaced : w.placed = []) :
    Left env files₀ target good w := by
  refine ⟨?_, fun _ _ => hsame, fun b hb => .inr (hsame ▸ hb)⟩
  intro b hb
  rw [hplaced] at hb
  cases hb

theorem Left.of_placed (hgood : good bytes) (hplaced : w.placed = [bytes])
    (hcontent : ∀ b, w.files target = some b → b = bytes ∨ files₀ target = some b) : Left env files₀ target good w := by
  refine ⟨?_, ?_, ?_⟩
  · intro b hb
    rw [hplaced, mem_singleton] at hb
    rw [hb]
    exact hgood
  · intro hnil
    rw [hplaced] at hnil
    cases hnil
  · intro b hb
    rw [hplaced, mem_singleton]
    exact hcontent b hb

include hbt in
theorem undoKeep_spec (hold : hadOld = (files₀ target).isSome) :
    Spec (fun w => Kept env files₀ target backup w ∧ w.attempted) (undoKeep env target backup hadOld)
      (fun _ => Left env files₀ target good) (fun _ => Left env files₀ target good) := by
  refine Spec.ite (fun hwindows => ?_) (fun _ => ?_)
  · rw [Bool.and_eq_true, hold] at hwindows
    refine Spec.attempt_bind (Q := fun _ => Left env files₀ target good)
      (rename_spec (fun w n h => ⟨h.1.blind w n, h.2⟩) ?_) (fun _ => Spec.pure fun _ h => h)
      (fun _ => Spec.pure fun _ h => .of_kept h.1 h.2)
    intro w moved h hw
    refine .of_same ?_ h.1.placed
    dsimp only
    rw [setFile_self, ← h.1.old hwindows.1, hw]
  · refine Spec.update ?_
    intro w h
    have hfiles : (removeBackup env backup w).files target = w.files target := files_removeBackup hbt
    have hleft : Left env files₀ target good w := .of_kept h.1 h.2
    exact ⟨hleft.placed, fun hp hc => hfiles.trans (hleft.unchanged hp hc), fun b hb => hleft.content b (hfiles ▸ hb)⟩

include hbt in
theorem smokeOrRestore_spec (hgood : good bytes) (hold : hadOld = (files₀ target).isSome) :
    Spec (Placed files₀ target backup bytes) (smokeOrRestore env target backup hadOld)
      (fun _ => Left env files₀ target good) (fun _ => Left env files₀ target good) := by
  have hkeep : ∀ w, Placed files₀ target backup bytes w → Left env files₀ target good w := fun w h =>
    .of_placed hgood h.placed fun b hb => .inl (some.inj (hb.symm.trans h.holds))
  refine Spec.bind (Q := fun _ => Placed files₀ target backup bytes)
    (Spec.update fun w h => ⟨h.old, h.holds, h.placed⟩) ?_
  intro smoked
  cases smoked with
  | ok =>
    refine Spec.bind (Q := fun _ => Left env files₀ target good) (Spec.update fun w h => ?_) (fun _ => Spec.pure fun _ h => h)
    refine .of_placed hgood h.placed fun b hb => .inl ?_
    rw [files_removeBackup hbt, h.holds] at hb
    exact (some.inj hb).symm
  | error =>
    have hrestore : Spec (Placed files₀ target backup bytes) (restore env target backup hadOld)
        (fun _ => Left env files₀ target good) (fun _ => Placed files₀ target backup bytes) := ?_
    · exact Spec.attempt_bind hrestore (fun _ => Spec.fail fun _ h => h) (fun _ => Spec.fail fun w h => hkeep w h)
    refine Spec.ite (fun hhad => rename_spec Placed.blind ?_) (fun _ => ?_)
    · intro w moved h hw
      refine .of_placed hgood h.placed fun b hb => .inr ?_
      dsimp only at hb
      rw [setFile_self] at hb
      rw [← h.old (hold ▸ hhad), hw]
      exact hb
    · refine Spec.bind (keeps_syscall Placed.blind _) ?_
      intro _
      refine Spec.update ?_
      intro w h
      refine .of_placed hgood h.placed fun b hb => ?_
      unfold removeFile at hb
      dsimp only at hb
      rw [setFile_self] at hb
      cases hb

end

section
variable {env : Env} {files₀ : Path → Option Bytes} {dir : Path} {last : Str} {bytes : Bytes} {good : Bytes → Prop}

/-- **Only the staged bytes get to the target**, or the old ones back. -/
theorem replace_spec (hgood : good bytes) : Spec (Ready files₀ (dir ++ [last]) (stagedPath env (dir ++ [last])) bytes)
    (replace env (dir ++ [last]) (stagedPath env (dir ++ [last]))) (fun _ => Left env files₀ (dir ++ [last]) good)
    (fun _ => Left env files₀ (dir ++ [last]) good) := by
  have hst : stagedPath env (dir ++ [last]) ≠ dir ++ [last] := stagedPath_ne_target
  have hbt : backupPath env (dir ++ [last]) ≠ dir ++ [last] := by
    rw [backupPath_eq]
    exact ne_of_last_ne (ne_of_apply_ne List.length (by simp))
  have hbs : backupPath env (dir ++ [last]) ≠ stagedPath env (dir ++ [last]) := backupPath_ne_stagedPath
  have hsweep : ∀ w, Ready files₀ (dir ++ [last]) (stagedPath env (dir ++ [last])) bytes w →
      Ready files₀ (dir ++ [last]) (stagedPath env (dir ++ [last])) bytes (sweepBackups env (dir ++ [last]) w) := by
    intro w h
    refine ⟨?_, ?_, h.placed, h.attempted⟩
    · unfold sweepBackups
      dsimp only
      rw [isBackup_stagedPath, Bool.and_false, Bool.false_and, if_neg Bool.false_ne_true]
      exact h.holds
    · unfold sweepBackups
      dsimp only
      rw [isBackup_target, Bool.and_false, Bool.false_and, if_neg Bool.false_ne_true]
      exact h.same
  unfold replace
  refine Spec.bind (Q := fun _ => Ready files₀ _ _ bytes) (Spec.update hsweep) fun _ => ?_
  refine Spec.bind (Q := fun _ => Ready files₀ _ _ bytes) (Spec.update fun w h => Ready.removeBackup hbt hbs h) fun _ => ?_
  refine Spec.bind (Q := fun hadOld w => Ready files₀ (dir ++ [last]) (stagedPath env (dir ++ [last])) bytes w ∧
    hadOld = (files₀ (dir ++ [last])).isSome) (Spec.update fun w h => ⟨h, by rw [h.same]⟩) ?_
  intro hadOld
  refine Spec.assume fun hold => ?_
  refine Spec.bind ((keepOld_spec hst hbt hbs hold).stops fun _ _ h => .of_same h.same h.placed) fun _ => ?_
  refine Spec.attempt_bind (place_spec hbt hbs) (fun _ => smokeOrRestore_spec hbt hgood hold) (fun e => ?_)
  exact Spec.bind (undoKeep_spec hbt hold) fun _ => Spec.fail fun _ h => h

/-! ## The notices -/

def Sees (target : Path) (P : World → Prop) : Prop :=
  ∀ w w' : World, w'.files target = w.files target → w'.placed = w.placed → w'.attempted = w.attempted → P w → P w'

variable {target : Path}

theorem Sees.blind {P : World → Prop} (hP : Sees target P) : Blind P := fun w _ => hP w _ rfl rfl rfl

theorem Left.sees : Sees target (Left env files₀ target good) := by
  intro w w' hfiles hplaced hattempted h
  refine ⟨?_, ?_, ?_⟩
  · rw [hplaced]
    exact h.placed
  · rw [hplaced, hattempted, hfiles]
    exact h.unchanged
  · rw [hplaced, hfiles]
    exact h.content

section
variable {target : Path} {P : World → Prop}

theorem keeps_removeFile (hP : Sees target P) {p : Path} (hp : target ≠ p) :
    Keeps P (.update fun w => ((), removeFile p w) : Action Unit) :=
  Spec.update fun w h => hP w _ (setFile_of_ne _ _ hp) rfl rfl h

theorem keeps_writeNotice (hP : Sees target P) {licenses : Path} (hlen : target.length ≠ licenses.length + 1) (name : Str)
    (body : Bytes) : Keeps P (writeNotice env licenses name body) := by
  have hne : ∀ x : Str, target ≠ licenses ++ [x] := by
    rintro x rfl
    rw [length_append, length_singleton] at hlen
    exact hlen rfl
  have hwrite : Keeps P (do
      syscall env "create"
      createNew env (licenses ++ ['.' :: (name ++ ".update-".toList ++ decimal env.pid)]) "open"
      writeAll env (licenses ++ ['.' :: (name ++ ".update-".toList ++ decimal env.pid)]) body
      rename env (licenses ++ ['.' :: (name ++ ".update-".toList ++ decimal env.pid)]) (licenses ++ [name]) "rename" :
      Action Unit) := by
    refine (keeps_syscall hP.blind _).bind fun _ => ?_
    refine Keeps.bind ?_ fun _ => Keeps.bind ?_ fun _ => ?_
    · refine (keeps_syscall hP.blind _).bind fun _ => ?_
      exact Spec.update fun w h => hP w _ (setFile_of_ne _ _ (hne _)) rfl rfl h
    · refine Keeps.bind (Spec.update fun w h => hP w _ (setFile_of_ne _ _ (hne _)) rfl rfl h) fun fault => ?_
      exact Spec.ite (fun _ => Keeps.fail _) (fun _ => Keeps.pure ())
    · refine rename_spec hP.blind ?_
      intro w moved h _
      exact hP w _ ((setFile_of_ne _ _ (hne _)).trans (setFile_of_ne _ _ (hne _))) rfl rfl h
  refine (keeps_removeFile hP (hne _)).bind fun _ => ?_
  exact Spec.attempt_bind hwrite (fun _ => Keeps.pure ()) (fun _ => keeps_removeFile hP (hne _))

theorem keeps_refreshLicenses (hP : Sees target P) {dir : Path} (hlen : target.length ≠ dir.length + 2) (base : Str)
    (names : List Str) : Keeps P (refreshLicenses env base dir names) := by
  induction names with
  | nil => exact .pure ()
  | cons name rest ih =>
    refine Keeps.bind ?_ fun _ => ih
    refine Spec.attempt_bind (keeps_get hP.blind _ _) (fun fetched => ?_) (fun _ => Keeps.pure ())
    cases fetched with
    | none => exact Keeps.pure ()
    | some body => exact keeps_writeNotice hP (by simpa using hlen) name body

end

/-! ## The run -/

variable {Key Sig : Type} {c : Crates Key Sig} {trust : TrustRoot Key}

theorem Staging.left {w : World} {target staged : Path} (h : Staging files₀ staged bytes w) (hst : staged ≠ target) :
    Left env files₀ target good w :=
  .of_same (h.others target hst.symm) h.placed

variable {req : Request}

theorem installStaged_spec (hreq : req.target = dir ++ [last]) (tag : Tag) (base : Str) (expected : Bytes) :
    Spec (Staging files₀ (stagedPath env req.target) [])
      (installStaged env c req tag base dir (stagedPath env req.target) expected)
      (fun out w => Left env files₀ req.target (fun b => c.sha256 b = expected) w ∧ out = .updated tag)
      (fun _ => Left env files₀ req.target fun b => c.sha256 b = expected) := by
  have hst : stagedPath env req.target ≠ req.target := by
    rw [hreq]
    exact stagedPath_ne_target
  refine Spec.bind ((download_spec _).stops (fun _ _ ⟨_, h⟩ => h.left hst)) ?_
  intro actual
  refine Spec.assume_exists fun bytes => Spec.assume fun hactual => ?_
  have hleft : ∀ w, Staging files₀ (stagedPath env req.target) bytes w →
      Left env files₀ req.target (fun b => c.sha256 b = expected) w := fun w h => h.left hst
  refine Spec.bind ((keeps_syscall (Staging.blind bytes) _).stops fun _ w h => hleft w h)
    fun _ => ?_
  refine Spec.ite (fun _ => Spec.fail hleft) (fun hexpected => ?_)
  have hgood : c.sha256 bytes = expected := hactual.symm.trans (not_not.mp hexpected)
  have hmode : Keeps (Staging files₀ (stagedPath env req.target) bytes) (copyMode env req) := by
    refine Keeps.bind (Spec.update fun _ h => h) fun there => ?_
    refine Keeps.bind (Spec.ite (fun _ => Keeps.pure ()) (fun _ => keeps_syscall (Staging.blind bytes) _)) fun _ => ?_
    exact (keeps_syscall (Staging.blind bytes) _).bind fun _ => keeps_syscall (Staging.blind bytes) _
  refine Spec.bind (hmode.stops fun _ w h => hleft w h) fun _ => ?_
  refine Spec.bind (Q := fun _ => Left env files₀ req.target fun b => c.sha256 b = expected) ?_ fun _ => ?_
  · rw [hreq]
    have hreplace := @replace_spec env files₀ dir last bytes (fun b => c.sha256 b = expected) hgood
    refine hreplace.asks ?_
    intro w h
    rw [hreq] at hst
    exact ⟨h.holds, h.others _ hst.symm, h.placed, h.attempted⟩
  · refine Spec.bind (keeps_refreshLicenses Left.sees ?_ base _) fun _ => Spec.pure fun _ h => ⟨h, rfl⟩
    rw [hreq, length_append, length_singleton]
    omega

/-- What an install leaves: a target as `Left` says, and no staged file, if one was made. -/
def Clean (env : Env) (files₀ : Path → Option Bytes) (target : Path) (good : Bytes → Prop) (w : World) : Prop :=
  Left env files₀ target good w ∧ (w.files = files₀ ∨ w.files (stagedPath env target) = none)

def Idle (files₀ : Path → Option Bytes) (w : World) : Prop := w.files = files₀ ∧ w.placed = [] ∧ w.attempted = false

theorem Idle.blind : Blind (Idle files₀) := fun _ _ h => h

theorem Idle.clean {w : World} (h : Idle files₀ w) : Clean env files₀ target good w :=
  ⟨.of_same (by rw [h.1]) h.2.1, .inl h.1⟩

theorem install_spec (tag : Tag) (base : Str) (expected : Bytes) :
    Spec (Idle files₀) (install env c req tag base expected)
      (fun out w => Clean env files₀ req.target (fun b => c.sha256 b = expected) w ∧ out = .updated tag)
      (fun _ => Clean env files₀ req.target fun b => c.sha256 b = expected) := by
  unfold install
  cases hparent : Path.parent req.target with
  | none => exact Spec.fail fun _ h => h.clean
  | some dir =>
    obtain ⟨last, hreq⟩ : ∃ last, req.target = dir ++ [last] := by
      unfold Path.parent at hparent
      split at hparent
      · cases hparent
      · rename_i hne
        cases hparent
        have hne' : req.target ≠ [] := by simpa using hne
        exact ⟨req.target.getLast hne', (dropLast_append_getLast hne').symm⟩
    have hst : stagedPath env req.target ≠ req.target := by
      rw [hreq]
      exact stagedPath_ne_target
    dsimp only
    refine Spec.bind ((keeps_syscall Idle.blind _).stops fun _ _ h => h.clean) fun _ => ?_
    -- a leftover is gone before the file is made
    refine Spec.bind (Q := fun _ w => w.files = setFile files₀ (stagedPath env req.target) none ∧ w.placed = [] ∧
      w.attempted = false) (Spec.update fun w h => ⟨by rw [← h.1]; rfl, h.2⟩) fun _ => ?_
    refine Spec.bind (Q := fun _ => Staging files₀ (stagedPath env req.target) []) ?_ fun _ => ?_
    · refine Spec.bind ((keeps_syscall (fun _ _ h => h) _).stops ?_) fun _ => ?_
      · intro _ w h
        refine ⟨.of_same ?_ h.2.1, .inr ?_⟩
        · rw [h.1, setFile_of_ne _ _ hst.symm]
        · rw [h.1, setFile_self]
      · refine Spec.update ?_
        intro w h
        refine ⟨setFile_self _ _ _, ?_, h.2.1, h.2.2⟩
        intro p hp
        dsimp only
        rw [setFile_of_ne _ _ hp, h.1, setFile_of_ne _ _ hp]
    · -- however it ends, the staged file is removed
      have hremove : ∀ w, Left env files₀ req.target (fun b => c.sha256 b = expected) w →
          Clean env files₀ req.target (fun b => c.sha256 b = expected) (removeFile (stagedPath env req.target) w) := by
        intro w h
        refine ⟨Left.sees w _ (setFile_of_ne _ _ hst.symm) rfl rfl h, .inr (setFile_self _ _ _)⟩
      refine Spec.andThen ((installStaged_spec hreq tag base expected).mono (fun _ h => h) ?_ ?_)
      · exact fun out w h => ⟨hremove w h.1, h.2⟩
      · exact fun e w h => hremove w h

theorem Tag.lt_of_not_lt {a b : Tag} (hne : a ≠ b) (h : ¬a < b) : b < a := by
  have hfields : ¬(a.major = b.major ∧ a.minor = b.minor ∧ a.patch = b.patch) := by
    rintro ⟨h₁, h₂, h₃⟩
    apply hne
    cases a
    cases b
    subst h₁ h₂ h₃
    rfl
  change ¬(a.major < b.major ∨ a.major = b.major ∧ (a.minor < b.minor ∨ a.minor = b.minor ∧ a.patch < b.patch)) at h
  show b.major < a.major ∨ b.major = a.major ∧ (b.minor < a.minor ∨ b.minor = a.minor ∧ b.patch < a.patch)
  omega

/-- The first digest for the asset in lines that are vouched for, of a tag that may be installed. -/
def Trusted (c : Crates Key Sig) (Signed : Key → Str → Bytes → Prop) (trust : TrustRoot Key) (req : Request) (bytes : Bytes) :
    Prop :=
  ∃ tag sums, Vouched c Signed trust tag sums ∧ ListedFirst sums req.asset (c.sha256 bytes) ∧
    (req.pinned = some tag ∨ req.pinned = none ∧ req.current < tag)

def Outcome.idle : Outcome → Bool
  | .updated _ => false
  | _ => true

theorem resolveTag_spec {P : World → Prop} (hP : Blind P) :
    Spec P (resolveTag env c req) (fun tag w => P w ∧ (req.pinned = some tag ∨ req.pinned = none)) (fun _ => P) := by
  have hkeeps : Keeps P (resolveTag env c req) := keeps_resolveTag hP
  cases hpinned : req.pinned with
  | none => exact hkeeps.mono (fun _ h => h) (fun _ _ h => ⟨h, .inr rfl⟩) (fun _ _ h => h)
  | some =>
    unfold resolveTag
    rw [hpinned]
    exact Spec.pure fun _ h => ⟨h, .inl rfl⟩

theorem run_spec {Signed : Key → Str → Bytes → Prop}
    (hunforgeable : ∀ key name message sig, c.verify key name message sig = .ok () → Signed key name message)
    (hwell : WellFormed trust) (req : Request) : Spec (Idle files₀) (run env c trust req)
    (fun out w => Clean env files₀ req.target (Trusted c Signed trust req) w ∧ (out.idle → w.files = files₀))
    (fun _ => Clean env files₀ req.target (Trusted c Signed trust req)) := by
  have hidle : ∀ w, Idle files₀ w → Clean env files₀ req.target (Trusted c Signed trust req) w := fun _ h => h.clean
  refine Spec.bind ((resolveTag_spec Idle.blind).stops fun _ w h => hidle w h) ?_
  intro tag
  refine Spec.assume fun hpinned => ?_
  refine Spec.bind ((verifiedSums_spec hunforgeable hwell Idle.blind tag _).stops fun _ w h => hidle w h) ?_
  intro sums
  refine Spec.assume fun hvouched => ?_
  refine Spec.ite (fun _ => Spec.pure fun w h => ⟨hidle w h, fun _ => h.1⟩) (fun hcurrent => ?_)
  refine Spec.ite (fun _ => Spec.fail hidle) (fun hnewer => ?_)
  refine Spec.bind (Q := fun expected w => Idle files₀ w ∧ ListedFirst sums req.asset expected)
    (Spec.lift (fun expected hsum w h => ⟨h, listedFirst_of_sumFor hsum⟩) fun _ _ w h => hidle w h) ?_
  intro expected
  refine Spec.assume fun hlisted => ?_
  refine Spec.ite (fun _ => Spec.pure fun w h => ⟨hidle w h, fun _ => h.1⟩) (fun _ => ?_)
  have htag : req.pinned = some tag ∨ req.pinned = none ∧ req.current < tag := by
    rcases hpinned with hpinned | hpinned
    · exact .inl hpinned
    · rw [hpinned] at hcurrent hnewer
      refine .inr ⟨hpinned, Tag.lt_of_not_lt ?_ ?_⟩
      · exact fun h => hcurrent ⟨rfl, h⟩
      · exact fun h => hnewer ⟨rfl, h⟩
  have hclean : ∀ w, Clean env files₀ req.target (fun b => c.sha256 b = expected) w →
      Clean env files₀ req.target (Trusted c Signed trust req) w := by
    intro w h
    refine ⟨⟨?_, h.1.unchanged, h.1.content⟩, h.2⟩
    intro b hb
    exact ⟨tag, sums, hvouched, by rw [h.1.placed b hb]; exact hlisted, htag⟩
  refine (install_spec tag _ expected).mono (fun _ h => h) ?_ (fun _ w h => hclean w h)
  intro out w h
  refine ⟨hclean w h.1, ?_⟩
  rw [h.2]
  intro hfalse
  cases hfalse

def World.start (files : Path → Option Bytes) : World := { files, calls := 0, attempted := false, placed := [] }

end

/-- **Only what a trusted key signed for the tag is installed**, whatever the server answers; a dry run changes no file,
    an error before the rename leaves the target as it was, and the staged file is gone after any error. -/
theorem installs_only_signed {Key Sig : Type} (c : Crates Key Sig) (Signed : Key → Str → Bytes → Prop)
    (hunforgeable : ∀ key name message sig, c.verify key name message sig = .ok () → Signed key name message)
    (allowed ranges presigning : Str) (trust : TrustRoot Key)
    (hparse : TrustRoot.parse c allowed ranges presigning = .ok trust) (env : Env) (req : Request)
    (files : Path → Option Bytes) :
    let result := (run env c trust req (World.start files)).1
    let w := (run env c trust req (World.start files)).2
    (∀ bytes ∈ w.placed, Trusted c Signed trust req bytes) ∧
    (∀ bytes, w.files req.target = some bytes → bytes ∈ w.placed ∨ files req.target = some bytes) ∧
    (∀ out, result = .ok out → out.idle = true → w.files = files) ∧
    ∀ e, result = .error e →
      (w.placed = [] → w.attempted = false ∨ env.windows = false → w.files req.target = files req.target) ∧
      (w.files = files ∨ w.files (stagedPath env req.target) = none) := by
  intro result w
  have hspec : Spec (Idle files) (run env c trust req) _ _ := run_spec hunforgeable (parse_wellFormed hparse) req
  have hidle : Idle files (World.start files) := ⟨rfl, rfl, rfl⟩
  have hclean : Clean env files req.target (Trusted c Signed trust req) w := by
    cases hresult : result with
    | ok out => exact (hspec.ok _ hidle out w (Prod.ext hresult rfl)).1
    | error e => exact hspec.error _ hidle e w (Prod.ext hresult rfl)
  refine ⟨hclean.1.placed, hclean.1.content, ?_, fun e _ => ⟨hclean.1.unchanged, hclean.2⟩⟩
  intro out hout
  exact (hspec.ok _ hidle out w (Prod.ext hout rfl)).2

/-! ### A signed release -/

namespace Sample

/-- The key of the line `oam-release-t1` in `tests/fixtures/self_update/allowed_signers`. -/
def blob : Str := "AAAAC3NzaC1lZDI1NTE5AAAAIMxIOepOzB6pbjBVP3RzR/JTE+psIHaR2fWLkftzXmOA".toList

/-- That line, and its line in `ranges`. -/
def allowed : Str := "oam-release-t1 namespaces=\"oam-release\" ssh-ed25519 ".toList ++ blob ++ ['\n']

def ranges : Str := "t1 v0.18.0 -\n".toList

/-- `payload.bin`, and its digest. -/
def binary : Bytes := encode "oam self-update fixture binary: not a real oam\n".toList

def binaryHex : Str := "1a62bad21a77dea75094dd843095384689752bf870472d803a9bd5ac167bd1ea".toList

/-- `manifest-v0.18.0`. -/
def manifest : Bytes :=
  encode ("oam-release-manifest v1\ntag v0.18.0\n".toList ++
    ["aarch64-apple-darwin", "aarch64-pc-windows-msvc.exe", "aarch64-unknown-linux-gnu", "x86_64-apple-darwin",
      "x86_64-pc-windows-msvc.exe", "x86_64-unknown-linux-gnu"].flatMap fun asset =>
        binaryHex ++ " *oam-".toList ++ asset.toList ++ ['\n'])

/-- `cases/valid.sig`, made by that key over the manifest. -/
def signature : Bytes :=
  encode (["-----BEGIN SSH SIGNATURE-----",
    "U1NIU0lHAAAAAQAAADMAAAALc3NoLWVkMjU1MTkAAAAgzEg56k7MHqluMFU/dHNH8lMT6m",
    "wgdpHZ9YuR+3NeY4AAAAALb2FtLXJlbGVhc2UAAAAAAAAABnNoYTUxMgAAAFMAAAALc3No",
    "LWVkMjU1MTkAAABATwSf0g4+i02GszJWg90PNCDhewwsvlNpxA4k6jUFY8RXhURvPPhzZt",
    "jzGAcQo3XM41LQWx6oy6ezwRq3gaZ/DQ==",
    "-----END SSH SIGNATURE-----"].flatMap fun line => line.toList ++ ['\n'])

/-- The crates on these texts: every other key, signature and signed message is refused. -/
def crates : Crates Bytes Unit where
  fromOpenssh text := if text = "ssh-ed25519 ".toList ++ blob then .ok (encode blob) else .error "invalid length"
  keyAlgorithm _ := .ed25519
  keyData key := key
  fingerprint _ := "SHA256:HGTWpLiMBRFgpurFRx8SMBmCf5kXKrDVpMv+0IhBWhE"
  fromPem pem := if pem = signature then .ok () else .error "invalid PEM"
  version _ := 1
  sigNamespace _ := "oam-release".toList
  hashAlg _ := .sha512
  publicKey _ := encode blob
  algorithm _ := .ed25519
  verify key name message _ :=
    if key = encode blob ∧ name = namespaceName ∧ message = manifest then .ok () else .error "signature error"
  sha256 bytes := if bytes = binary then (parseSha256Hex binaryHex).getD [] else []
  printable _ := ""

/-- What the key's owner signed. -/
def Signed (key : Bytes) (name : Str) (message : Bytes) : Prop :=
  key = encode blob ∧ name = namespaceName ∧ message = manifest

def trust : TrustRoot Bytes := (TrustRoot.parse crates allowed ranges []).toOption.getD ⟨[], [], []⟩

theorem parse_trust : TrustRoot.parse crates allowed ranges [] = .ok trust := by
  have hok : (TrustRoot.parse crates allowed ranges []).toBool := by decide +kernel
  unfold trust
  cases hparse : TrustRoot.parse crates allowed ranges [] with
  | ok => rfl
  | error =>
    rw [hparse] at hok
    cases hok

/-- A server with that release as its latest. -/
def env : Env where
  server _ url :=
    if url = "r/latest".toList then .response ⟨200, "r/tag/v0.18.0".toList, [], none⟩
    else if url = "r/download/v0.18.0/RELEASE-MANIFEST".toList then .response ⟨200, url, [manifest], none⟩
    else if url = "r/download/v0.18.0/RELEASE-MANIFEST.sig".toList then .response ⟨200, url, [signature], none⟩
    else if url = "r/download/v0.18.0/oam-x86_64-unknown-linux-gnu".toList then .response ⟨200, url, [binary], none⟩
    else .response ⟨404, url, [], none⟩
  fault _ := none
  inUse _ _ := false
  smoke _ := .ok "oam 0.18.0"
  pid := 7
  secs := 100
  windows := false

def request : Request where
  pinned := none
  current := ⟨0, 17, 1⟩
  releasesRoot := "r".toList
  assetBase := none
  assetBaseVar := ""
  asset := "oam-x86_64-unknown-linux-gnu".toList
  target := ["bin".toList, "oam".toList]
  dryRun := false

end Sample

open Sample

/-- The latest release is installed: its manifest is signed by a key whose range has the tag. -/
theorem installs_only_signed_latest :
    (run env crates trust request (World.start fun _ => none)).2.placed = [binary] ∧
      Trusted crates Signed trust request binary := by
  have hplaced : (run env crates trust request (World.start fun _ => none)).2.placed = [binary] := by
    decide +kernel
  refine ⟨hplaced, ?_⟩
  have hunforgeable : ∀ key name message sig, crates.verify key name message sig = .ok () → Signed key name message := by
    intro key name message sig hverify
    by_contra hnot
    have hrefused : crates.verify key name message sig = .error "signature error" := if_neg hnot
    rw [hrefused] at hverify
    nomatch hverify
  have h := installs_only_signed crates Signed hunforgeable allowed ranges [] trust parse_trust env request fun _ => none
  exact h.1 binary (by rw [hplaced]; exact mem_singleton_self binary)

end Oam.SelfUpdate
