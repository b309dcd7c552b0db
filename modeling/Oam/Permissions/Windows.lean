/-
  `permissions.rs` on Windows: the path judged is the path opened.

  An fs op hands the OS the namespaced path of node's binding, and its check strips the prefix off that very text; a
  grant is read through the resolve alone.  The two readings meet in the resolved text.  `GetFullPathNameW`, which the
  check of a path with no `\\?\` prefix asks, is the parameter `fullPath`; no path an fs op hands over reaches it.
-/
import Oam.Permissions.FsKey
import Oam.Win32.Resolve

namespace Oam.Permissions.Windows

open List Text LexPath Oam.Win32

/-! ## The program -/

/-- A device or verbatim spelling: two separators, `.` or `?`, then a separator or the end; or the NT
    prefix `\??\`. -/
def isDeviceSpelling (path : Str) : Bool :=
  "\\??\\".toList.isPrefixOf path ||
    match path with
    | c :: d :: e :: rest => isSep c && isSep d && (e == '.' || e == '?') && rest.head?.all isSep
    | _ => false

/-- `splitn(3, '\\')`: the server, the share (empty if missing) and the rest. -/
def splitShare (unc : Str) : Str × Str × Str :=
  match splitOnce '\\' unc with
  | none => (unc, [], [])
  | some (server, after) =>
    match splitOnce '\\' after with
    | none => (server, after, [])
    | some (share, rest) => (server, share, rest)

/-- The root of a resolved path in its plain form, and the text below it. -/
def plainRoot (path : Str) : Option (Str × Str) :=
  match path with
  | c :: ':' :: '\\' :: rest => if c.isAlpha then some ([c, ':'], rest) else uncRoot path
  | _ => uncRoot path
where
  uncRoot (path : Str) : Option (Str × Str) := do
    let unc ← path.dropPrefix? ['\\', '\\']
    let (server, share, rest) := splitShare unc
    if server.isEmpty || share.isEmpty || server == ['.'] || server == ['?'] then none
    else some ('\\' :: '\\' :: (server ++ '\\' :: share), rest)

/-- The key of a resolved path: of a drive or a share alone. -/
def winPlainKey (path : Str) : Option FsKey := do
  let (root, rest) ← plainRoot path
  let parts := (rest.splitOn '\\').filter fun part => !part.isEmpty
  if parts.any fun part => part == ['.'] || part == ['.', '.'] || part.contains '/' then none
  else some ⟨root, parts⟩

/-- The key of a path exactly as it is handed to the OS. -/
def winTargetKey (fullPath : Str → Option Str) (os : Str) : Option FsKey :=
  match os.dropPrefix? "\\\\?\\".toList with
  | some rest =>
    match rest.dropPrefix? "UNC\\".toList with
    | some unc => winPlainKey ('\\' :: '\\' :: unc)
    | none => winPlainKey rest
  | none =>
    if os.isEmpty || isDeviceSpelling os then none
    else do
      let absolute ← fullPath os
      if isDeviceSpelling absolute then none else winPlainKey absolute

section Entries

variable (cwd : Str) (driveCwd : Str → Option Str)

/-- `win_resolve`, against the process's cwd and per-drive directories. -/
def winResolve (path : Str) : Str := win32ResolveMode .cpp cwd driveCwd path

/-- An entry resolved as node resolves a grant, or `none` for one that grants nothing. -/
def winEntryResolved (entry : Str) : Option Str :=
  if entry.isEmpty || isDeviceSpelling entry then none else some (winResolve cwd driveCwd entry)

def winEntryKey (entry : Str) : Option FsKey :=
  (winEntryResolved cwd driveCwd entry).bind winPlainKey

def fsEntryKey (entry : Str) : Option FsGrant :=
  (winEntryResolved cwd driveCwd entry).bind (entryGrant winPlainKey '\\')

/-- Every entry is resolved once, rooted ones too; a device spelling is kept as given. -/
def fsGrant (v : BoolOrList) : PermValue :=
  match fromBoolOrList v with
  | .list items =>
    .list (items.map fun entry =>
      if entry.isEmpty || isDeviceSpelling entry then entry else winResolve cwd driveCwd entry)
  | other => other

def allowsFsPath (fullPath : Str → Option Str) (self : PermValue) (target : Str) : Bool :=
  self.allowsFsPath (fsEntryKey cwd driveCwd) (winTargetKey fullPath) target

end Entries

/-! ## Reading a location's text -/

theorem plainRoot_unc (unc : Str) : plainRoot ('\\' :: '\\' :: unc) = let (server, share, rest) := splitShare unc
      if server.isEmpty || share.isEmpty || server == ['.'] || server == ['?'] then none
      else some ('\\' :: '\\' :: (server ++ '\\' :: share), rest) := by
  have hstrip : ('\\' :: '\\' :: unc).dropPrefix? ['\\', '\\'] = some unc :=
    dropPrefix?_eq_some.mpr rfl
  unfold plainRoot
  split
  · rename_i heq
    simp only [List.cons.injEq] at heq
    exact absurd heq.2.1 (by decide)
  · rw [plainRoot.uncRoot, hstrip]
    rfl

variable {D : Str}

theorem plainRoot_device (h : IsDrive D ∨ IsShare D) (rest : Str) : plainRoot (D ++ '\\' :: rest) = some (D, rest) := by
  rcases h with ⟨c, hc, rfl⟩ | ⟨server, share, hs, hh, h1, h2, rfl⟩
  · simp [plainRoot, hc]
  · have htext : '\\' :: '\\' :: (server ++ '\\' :: share) ++ '\\' :: rest =
        '\\' :: '\\' :: (server ++ '\\' :: (share ++ '\\' :: rest)) := by simp
    rw [htext, plainRoot_unc]
    simp only [splitShare, splitOnce_append (backslash_not_mem hs), splitOnce_append (backslash_not_mem hh)]
    simp [hs.1, hh.1, h1, h2]

variable {rest : Str} {L : List Str}

theorem winPlainKey_of_parts (hD : IsDrive D ∨ IsShare D) (hL : ∀ n ∈ L, IsName isSep n)
    (hrest : (rest.splitOn '\\').filter (fun part => !part.isEmpty) = L) :
    winPlainKey (D ++ '\\' :: rest) = some ⟨D, L⟩ := by
  have hclean : (L.any fun part => part == ['.'] || part == ['.', '.'] || part.contains '/') = false := by
    rw [any_eq_false]
    intro n hn
    have h := hL n hn
    have hslash : '/' ∉ n := fun hmem => absurd (h.no_sep _ hmem) (by decide)
    simp [h.ne_dot, h.ne_dotdot, hslash]
  simp only [winPlainKey, plainRoot_device hD, Option.bind_eq_bind, Option.bind_some, hrest, hclean,
    Bool.false_eq_true, if_false]

theorem names_no_backslash (hL : ∀ n ∈ L, IsName isSep n) : ∀ n ∈ L, n ≠ [] ∧ '\\' ∉ n :=
  fun n hn => ⟨(hL n hn).ne_nil, backslash_not_mem ⟨(hL n hn).ne_nil, (hL n hn).no_sep⟩⟩

/-- **The text of a location is read as that location.** -/
theorem winPlainKey_locationText (h : IsLocation D L) : winPlainKey (locationText D L) = some ⟨D, L⟩ :=
  winPlainKey_of_parts (h.device.imp id And.left) h.names
    (splitOn_join_filter (names_no_backslash h.names))

variable {cwd p : Str} {driveCwd : Str → Option Str}

/-- … and so is the namespaced text an fs op hands over. -/
theorem winTargetKey_fsOsPathWith (fullPath : Str → Option Str) (hp : p ≠ []) (h : IsLocation D L)
    (hR : win32ResolveMode .cpp cwd driveCwd p = locationText D L) :
    winTargetKey fullPath (fsOsPathWith .cpp cwd driveCwd p) = some ⟨D, L⟩ := by
  have hkey := winPlainKey_locationText h
  have hlong (a b c : Char) (rest : Str) : ¬ utf8Len (a :: b :: c :: rest) ≤ 2 := by
    have ha := Char.utf8Size_pos a
    have hb := Char.utf8Size_pos b
    have hc := Char.utf8Size_pos c
    rw [utf8Len_cons, utf8Len_cons, utf8Len_cons]
    omega
  rcases h.device with ⟨c, hc, rfl⟩ | ⟨-, c, _, h1, h2, rfl⟩
  · -- a drive: what follows the prefix is no `UNC\`
    have hnot : (c :: ':' :: '\\' :: ['\\'].intercalate L).dropPrefix? "UNC\\".toList = none := by
      cases hd : (c :: ':' :: '\\' :: ['\\'].intercalate L).dropPrefix? "UNC\\".toList with
      | none => rfl
      | some r =>
        have he : c :: ':' :: '\\' :: ['\\'].intercalate L = 'U' :: 'N' :: 'C' :: '\\' :: r :=
          dropPrefix?_eq_some.mp hd
        simp only [List.cons.injEq] at he
        exact absurd he.2.1 (by decide)
    have hpath : fsOsPathWith .cpp cwd driveCwd p =
        "\\\\?\\".toList ++ (c :: ':' :: '\\' :: ['\\'].intercalate L) := by
      rw [fsOsPathWith, if_neg hp, hR]
      simp only [locationText, cons_append, nil_append, hlong, if_false, if_pos hc]
      rfl
    rw [winTargetKey, hpath, dropPrefix?_append]
    simp only [hnot]
    exact hkey
  · rename_i rest
    have hpath : fsOsPathWith .cpp cwd driveCwd p =
        "\\\\?\\".toList ++ ("UNC\\".toList ++ c :: (rest ++ '\\' :: ['\\'].intercalate L)) := by
      rw [fsOsPathWith, if_neg hp, hR]
      simp only [locationText, cons_append, hlong, if_false, if_pos (And.intro h2 h1)]
      rfl
    rw [winTargetKey, hpath, dropPrefix?_append]
    simp only [dropPrefix?_append]
    exact hkey

/-! ## What a grant admits -/

theorem isDeviceSpelling_locationText (h : IsLocation D L) : isDeviceSpelling (locationText D L) = false := by
  have hnt : ∀ (c d : Char) (rest : Str), d ≠ '?' → "\\??\\".toList.isPrefixOf (c :: d :: rest) = false := by
    intro c d rest hd
    have hlit : "\\??\\".toList = ['\\', '?', '?', '\\'] := rfl
    simp [hlit, isPrefixOf_cons_cons, Ne.symm hd]
  rcases h.device with ⟨c, hc, rfl⟩ | ⟨-, c, rest, h1, h2, rfl⟩
  · have hcolon : isSep ':' = false := by decide
    show isDeviceSpelling (c :: ':' :: '\\' :: ['\\'].intercalate L) = false
    rw [isDeviceSpelling, hnt c ':' _ (by decide), hcolon, Bool.and_false]
    rfl
  · have hc : (c == '.' || c == '?') = false := by simp [h1, h2]
    show isDeviceSpelling ('\\' :: '\\' :: c :: (rest ++ '\\' :: ['\\'].intercalate L)) = false
    rw [isDeviceSpelling, hnt '\\' '\\' _ (by decide), hc, Bool.and_false]
    rfl

theorem entryGrant_cut_unc {dir start : Str} (hd : '*' ∉ dir) (hs : '*' ∉ start)
    (hsep : '\\' ∉ start) (hkey : winPlainKey (dir ++ ['\\']) = none) (rest : Str) :
    entryGrant winPlainKey '\\' (dir ++ '\\' :: (start ++ '*' :: rest)) = none := by
  have hbefore : '*' ∉ dir ++ '\\' :: start := by simp [hd, hs]
  have htext : dir ++ '\\' :: (start ++ '*' :: rest) = (dir ++ '\\' :: start) ++ '*' :: rest := by
    simp
  simp only [entryGrant, htext, splitOnce_append hbefore, rsplitOnce_append hsep, hkey, Option.map_none]

theorem entryGrant_star_in_root (hD : IsDrive D ∨ IsShare D) (hstar : '*' ∈ D) (rest : Str) :
    entryGrant winPlainKey '\\' (D ++ '\\' :: rest) = none := by
  rcases hD with ⟨c, hc, rfl⟩ | ⟨server, share, hs, hh, h1, h2, rfl⟩
  · -- no drive letter is a star
    have hcs : c = '*' := by simpa [eq_comm] using hstar
    rw [hcs] at hc
    exact absurd hc (by decide)
  · have hcut : ∀ n : Str, '*' ∈ n → ∃ u v, n = u ++ '*' :: v ∧ '*' ∉ u := by
      intro n hn
      cases h : splitOnce '*' n with
      | none => exact absurd hn (splitOnce_eq_none.mp h)
      | some q => exact ⟨q.1, q.2, splitOnce_eq_some.mp h⟩
    by_cases hss : '*' ∈ server
    · obtain ⟨u, v, rfl, hu⟩ := hcut server hss
      have hsep : '\\' ∉ u := fun h => backslash_not_mem hs (by simp [h])
      have hkey : winPlainKey (['\\'] ++ ['\\']) = none := by
        show winPlainKey ('\\' :: '\\' :: []) = none
        rw [winPlainKey, plainRoot_unc]
        rfl
      simpa using entryGrant_cut_unc (by decide) hu hsep hkey (v ++ '\\' :: (share ++ '\\' :: rest))
    · have hsh : '*' ∈ share := by simpa [hss] using hstar
      obtain ⟨u, v, rfl, hu⟩ := hcut share hsh
      have hsep : '\\' ∉ u := fun h => backslash_not_mem hh (by simp [h])
      have hkey : winPlainKey ('\\' :: '\\' :: server ++ ['\\']) = none := by
        show winPlainKey ('\\' :: '\\' :: (server ++ '\\' :: [])) = none
        have hsplit : splitShare (server ++ '\\' :: []) = (server, [], []) := by
          simp only [splitShare, splitOnce_append (backslash_not_mem hs)]
          rfl
        rw [winPlainKey, plainRoot_unc, hsplit]
        simp
      simpa using entryGrant_cut_unc (by simp [hss]) hu hsep hkey (v ++ '\\' :: rest)

/-- **What the grant of a location admits**: nothing when its root has a `*`, and otherwise what it covers. -/
theorem entryGrant_locationText (h : IsLocation D L) (t : FsKey) : (entryGrant winPlainKey '\\' (locationText D L)).any
    (fun g => g.admits t) ↔ '*' ∉ D ∧ D = t.root ∧ covers L t.parts := by
  have hD : IsDrive D ∨ IsShare D := h.device.imp id And.left
  by_cases hstar : '*' ∈ D
  · rw [locationText, entryGrant_star_in_root hD hstar]
    simp [hstar]
  have hroot : D ≠ [] := by
    rcases hD with ⟨c, -, rfl⟩ | ⟨_, _, -, -, -, -, rfl⟩ <;> simp
  have hread : ∀ parts : List Str, (∀ n ∈ parts, IsName isSep n) →
      winPlainKey (D ++ ['\\'] ++ ['\\'].intercalate parts) = some ⟨D, parts⟩ := by
    intro parts hparts
    rw [append_assoc]
    exact winPlainKey_of_parts hD hparts (splitOn_join_filter (names_no_backslash hparts))
  have hdir : ∀ dir : List Str, (∀ n ∈ dir, IsName isSep n) →
      winPlainKey (D ++ ['\\'] ++ dir.flatMap (· ++ ['\\'])) = some ⟨D, dir⟩ := by
    intro dir hdir
    rw [append_assoc]
    exact winPlainKey_of_parts hD hdir (splitOn_dirs_filter (names_no_backslash hdir))
  have hadm := entryGrant_admits (fun n hn => backslash_not_mem ⟨hn.ne_nil, hn.no_sep⟩) (by decide) hroot hread hdir
    hstar h.names t
  rw [append_assoc] at hadm
  rw [locationText, and_iff_right hstar]
  exact hadm

/-- **The path judged is the path opened.** The check, the reading of the resolved path and that of a grant spelled
    alike give ONE key, and the grant admits what it covers; `p\x` is below it, unless `p` is a bare drive or server. -/
theorem judged_path_is_opened_path (cwd : Str) (driveCwd : Str → Option Str)
    (fullPath : Str → Option Str) (p : Str) (hcwd : IsDriveAbsolute cwd) (hp : p ≠ [])
    (hdevice : isDeviceSpelling p = false)
    (hform : IsDriveAbsolute (winResolve cwd driveCwd p) ∨ IsUncPath (winResolve cwd driveCwd p)) :
    ∃ key, winPlainKey (winResolve cwd driveCwd p) = some key ∧ winEntryKey cwd driveCwd p = some key ∧
      winTargetKey fullPath (fsOsPathWith .cpp cwd driveCwd p) = some key ∧
      (∀ part ∈ key.parts, part ≠ [] ∧ part ≠ ['.'] ∧ part ≠ ['.', '.']) ∧
      (∀ x, IsName isSep x → ¬ IsBareDrive p → ¬ IsServerOnly p →
        winTargetKey fullPath (fsOsPathWith .cpp cwd driveCwd (p ++ '\\' :: x)) = some ⟨key.root, key.parts ++ [x]⟩) ∧
      ∀ cwd' driveCwd',
        let admitted := fun target =>
          allowsFsPath cwd' driveCwd' fullPath (fsGrant cwd driveCwd (.list [p])) target = true
        (∀ target, admitted target ↔ ∃ t, winTargetKey fullPath target = some t ∧
          '*' ∉ key.root ∧ key.root = t.root ∧ covers key.parts t.parts) ∧
        ('*' ∉ winResolve cwd driveCwd p → (∀ target, admitted target ↔ ∃ t, winTargetKey fullPath target = some t ∧
            key.root = t.root ∧ key.parts <+: t.parts) ∧
          admitted (fsOsPathWith .cpp cwd driveCwd p) ∧
          ∀ x, IsName isSep x → ¬ IsBareDrive p → ¬ IsServerOnly p →
            admitted (fsOsPathWith .cpp cwd driveCwd (p ++ '\\' :: x))) := by
  obtain ⟨D, L, hloc, hR, hchild⟩ := win32ResolveMode_location .cpp driveCwd hcwd hp hform
  replace hR : winResolve cwd driveCwd p = locationText D L := hR
  have hself := winTargetKey_fsOsPathWith fullPath hp hloc hR
  have hbelow : ∀ x, IsName isSep x → ¬ IsBareDrive p → ¬ IsServerOnly p →
      winTargetKey fullPath (fsOsPathWith .cpp cwd driveCwd (p ++ '\\' :: x)) = some ⟨D, L ++ [x]⟩ := by
    intro x hx hbare hserver
    have hnames : ∀ n ∈ L ++ [x], IsName isSep n := by
      intro n hn
      rcases mem_append.mp hn with hn | hn
      · exact hloc.names n hn
      · exact mem_singleton.mp hn ▸ hx
    exact winTargetKey_fsOsPathWith fullPath (by simp) ⟨hloc.device, hnames⟩
      (hchild x hx hbare hserver)
  refine ⟨⟨D, L⟩, ?_, ?_, hself, ?_, hbelow, ?_⟩
  · rw [hR]
    exact winPlainKey_locationText hloc
  · simp [winEntryKey, winEntryResolved, hp, hdevice, hR, winPlainKey_locationText hloc]
  · intro part hpart
    have hn := hloc.names part hpart
    exact ⟨hn.ne_nil, hn.ne_dot, hn.ne_dotdot⟩
  · intro cwd' driveCwd' admitted
    have hadmits : ∀ target, admitted target ↔ ∃ t, winTargetKey fullPath target = some t ∧
        '*' ∉ D ∧ D = t.root ∧ covers L t.parts := by
      intro target
      have hgrant : fsGrant cwd driveCwd (.list [p]) = .list [locationText D L] := by
        simp [fsGrant, fromBoolOrList, hp, hdevice, hR]
      have hkey : fsEntryKey cwd' driveCwd' (locationText D L) = entryGrant winPlainKey '\\' (locationText D L) := by
        have hne : locationText D L ≠ [] := by simp [locationText]
        simp [fsEntryKey, winEntryResolved, winResolve, hne, isDeviceSpelling_locationText hloc,
          win32ResolveMode_locationText .cpp cwd' driveCwd' hloc]
      show allowsFsPath cwd' driveCwd' fullPath _ target ↔ _
      rw [hgrant]
      simp only [allowsFsPath, PermValue.allowsFsPath, PermValue.admitsKey, any_cons, any_nil,
        Bool.or_false, hkey, Option.any_eq_true, ← entryGrant_locationText hloc]
    refine ⟨hadmits, fun hstar => ?_⟩
    -- with no star in the text there is none in the device and none in a name
    rw [hR, locationText, mem_append, mem_cons, mem_join (by decide)] at hstar
    have hD : '*' ∉ D := fun h => hstar (.inl h)
    have hL : ∀ n ∈ L, '*' ∉ n := fun n hn h => hstar (.inr (.inr ⟨n, hn, h⟩))
    have htree : ∀ target, admitted target ↔
        ∃ t, winTargetKey fullPath target = some t ∧ D = t.root ∧ L <+: t.parts := by
      intro target
      rw [hadmits]
      simp only [hD, not_false_eq_true, true_and, covers_of_no_star hL]
    refine ⟨htree, (htree _).mpr ⟨_, hself, rfl, prefix_rfl⟩, ?_⟩
    intro x hx hbare hserver
    exact (htree _).mpr ⟨_, hbelow x hx hbare hserver, rfl, prefix_append L [x]⟩

/-- A grant of the relative `data\..\src/`, given in `C:\work`: it admits the op on `src\x`. -/
theorem judged_path_is_opened_path_src : allowsFsPath "D:\\".toList (fun _ => none) some
      (fsGrant "C:\\work".toList (fun _ => none) (.list ["data\\..\\src/".toList]))
      (fsOsPathWith .cpp "C:\\work".toList (fun _ => none) ("data\\..\\src/".toList ++ '\\' :: ['x']))
        = true := by
  have hR : winResolve "C:\\work".toList (fun _ => none) "data\\..\\src/".toList =
      "C:\\work\\src".toList := by decide +kernel
  obtain ⟨_, -, -, -, -, -, hgrant⟩ := judged_path_is_opened_path "C:\\work".toList (fun _ => none)
    some "data\\..\\src/".toList ⟨'C', "work".toList, by decide, rfl⟩ (by decide) (by decide +kernel)
    (.inl ⟨'C', "work\\src".toList, by decide, hR⟩)
  refine ((hgrant "D:\\".toList fun _ => none).2 ?_).2.2 ['x'] ?_ ?_ ?_
  · rw [hR]
    decide +kernel
  · exact ⟨by decide, by decide, by decide, by simp [isSep]⟩
  · rintro ⟨c, -, h⟩
    have hlen : "data\\..\\src/".toList.length = 2 := congrArg List.length h
    exact absurd hlen (by decide)
  · rintro ⟨c, d, _, _, hc, -, -, -, h⟩
    injection h with hc'
    rw [← hc'] at hc
    exact absurd hc (by decide)

/-- A grant does not always reach below its own path: `C:` in `C:\work\dir` is that directory, and
    `C:\x` is not in it. -/
theorem bare_drive_grant_misses_child : ¬ ∀ (cwd : Str) (driveCwd fullPath : Str → Option Str) (p x : Str),
    IsDriveAbsolute cwd → p ≠ [] → isDeviceSpelling p = false → IsDriveAbsolute (winResolve cwd driveCwd p) ∨ IsUncPath
    (winResolve cwd driveCwd p) → IsName isSep x → allowsFsPath cwd driveCwd fullPath (fsGrant cwd driveCwd (.list [p]))
    (fsOsPathWith .cpp cwd driveCwd (p ++ '\\' :: x)) = true := by
  intro h
  have hR : winResolve "C:\\work\\dir".toList (fun _ => none) "C:".toList =
      "C:\\work\\dir".toList := by decide +kernel
  have hbad := h "C:\\work\\dir".toList (fun _ => none) some "C:".toList ['x']
    ⟨'C', "work\\dir".toList, by decide, rfl⟩ (by decide) (by decide +kernel)
    (.inl ⟨'C', "work\\dir".toList, by decide, hR⟩) ⟨by decide, by decide, by decide, by simp [isSep]⟩
  revert hbad
  decide +kernel

end Oam.Permissions.Windows
