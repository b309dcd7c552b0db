/-
  Whole runs of a deflate stream.  Each loop ENDS, because a call that does not leave room has written more than it can
  add to what is owed; and what a schedule has written is the header, a body that decodes to the data, and the trailer.
-/
import Oam.Zlib.Inverse

namespace Oam.Zlib.NodeDeflate

open List

variable {C K : Type} {m : Miniz C} {raw : m.Incremental} {z : Compressor K} {inv : z.Inverse raw}
  {k : Checksums} {format : Format} {head primed : Bytes}

/-! ## Priming -/

theorem primeLoop_spec {tail : Bytes} (htail : tail ≠ []) (hwindow : tail.length ≤ window) : ∀ (owes : Nat) {core : K}
    {fed : Nat} {w : Bytes}, inv.rep core [] (tail.take fed) w none → fed ≤ tail.length → inv.owed core .sync + 2 *
    (tail.length - fed) ≤ owes → ∃ core', (∀ fuel, owes < fuel → primeLoop z tail fuel core fed = some core') ∧
    inv.rep core' tail [] [] none := by
  have hpos : 0 < tail.length := length_pos_iff.mpr htail
  intro owes
  induction owes using Nat.strong_induction_on with
  | _ owes ih =>
    intro core fed w hrep hfed howes
    cases hcall : z.deflate core (tail.drop fed) (tail.length + 64) .sync with
    | mk core' answer =>
      obtain ⟨n, p, _⟩ := answer
      obtain ⟨-, hn, hp, hrep', hall, _, hboundary⟩ := inv.call hrep (by omega) (by decide) hcall
      rw [length_drop] at hn hall
      rw [← take_add] at hrep'
      by_cases hstop : fed + n = tail.length ∧ p.length < tail.length + 64
      · refine ⟨core', fun fuel hfuel => ?_, ?_⟩
        · obtain _ | less := fuel
          · omega
          rw [primeLoop, hcall]
          exact if_pos hstop
        · rw [hstop.1, take_length] at hrep'
          exact inv.rep_boundary hrep' (hboundary rfl hstop.2) hwindow
      · -- out of room, so more has been written than the call can have added
        have hfull : p.length = tail.length + 64 := by
          by_contra hne
          exact hstop ⟨by have := hall (by omega); omega, by omega⟩
        obtain ⟨core'', hloop, hdone⟩ := ih (inv.owed core' .sync + 2 * (tail.length - (fed + n)))
          (by omega) hrep' (by omega) (Nat.le_refl _)
        refine ⟨core'', fun fuel hfuel => ?_, hdone⟩
        obtain _ | less := fuel
        · omega
        rw [primeLoop, hcall]
        simp only [if_neg hstop]
        exact hloop less (by omega)

variable {flush : Int}

def primedWith (format : Format) (dictionary : Option Bytes) : Bytes :=
  ((dictionaryFor format dictionary).map lastWindow).getD []

theorem Trailer.update_nil (t : Trailer) : t.update k [] = t := by
  cases t with
  | none => rfl
  | adler => rw [Trailer.update, k.adler32_nil]
  | gzip => rw [Trailer.update, append_nil]

theorem open_new {core : K} (hrep : inv.rep core primed [] [] none) (format : Format) (head : Bytes) :
    Open inv k format head primed
      { core, trailer := newTrailer format, pending := head, pendingAt := 0, ended := false } [] [] none :=
  ⟨rfl, Nat.zero_le _, (Trailer.update_nil _).symm, [], hrep, by simp [left], fun _ => rfl⟩

theorem new_spec (inv : z.Inverse raw) (k : Checksums) (format : Format) (level : Int) (dictionary : Option Bytes) :
    ∃ bound d, (∀ fuel, bound < fuel → new z k fuel format level dictionary = some d) ∧
      Open inv k format (header k format level dictionary) (primedWith format dictionary) d [] [] none := by
  have hinit := inv.rep_init (minizLevel level)
  unfold new primedWith
  cases hdict : dictionaryFor format dictionary with
  | none => exact ⟨0, _, fun fuel _ => rfl, open_new hinit format _⟩
  | some dict =>
    -- only a dictionary with something in it is used
    have hne : dict ≠ [] := by
      rintro rfl
      simp [dictionaryFor, Option.filter_eq_some_iff] at hdict
    have hlen := KeepsWindow.length_lastWindow dict
    have hpos := length_pos_iff.mpr hne
    have htail : lastWindow dict ≠ [] := by
      intro hnil
      rw [hnil, length_nil] at hlen
      have : window = 32 * 1024 := rfl
      omega
    rw [Option.map_some, Option.getD_some]
    obtain ⟨_, hloop, hrep⟩ := primeLoop_spec htail (by omega) _
      (show inv.rep _ [] ((lastWindow dict).take 0) [] none from hinit) (Nat.zero_le _) (Nat.le_refl _)
    refine ⟨inv.owed (z.setLevel z.init (minizLevel level)) .sync + 2 * ((lastWindow dict).length - 0), _,
      fun fuel hfuel => ?_, open_new hrep format _⟩
    simp only [prime, hloop fuel hfuel, Option.map_some]

/-! ## `deflate_vec` and `params` -/

theorem deflateVecLoop_open (hflush : flushOf flush ≠ .finish) : ∀ (owes : Nat) {d : NodeDeflate K}
    {x before out input : Bytes}, Open inv k format head primed d x (before ++ out) none → inv.owed d.core
    (flushOf flush) + d.left.length + 2 * input.length ≤ owes → ∃ d' written,
    (∀ fuel, owes < fuel → deflateVecLoop z k flush fuel d input out = some (d', written)) ∧
    Open inv k format head primed d' (x ++ input) (before ++ written) none ∧
    (flushOf flush = .sync → inv.boundary d'.core) := by
  intro owes
  induction owes using Nat.strong_induction_on with
  | _ owes ih =>
    intro d x before out input hopen howes
    cases hcall : d.deflate z k input stepOut flush with
    | mk d' answer =>
      obtain ⟨n, p⟩ := answer
      obtain ⟨_, _, hstays, hdrained, _, hboundary⟩ := deflate_open hopen hflush hcall
      by_cases hstop : (input.drop n).isEmpty ∧ p.length < stepOut
      · have hn := hdrained hstop.2
        refine ⟨d', out ++ p, fun fuel hfuel => ?_, ?_, fun hsync => hboundary hsync hstop.2⟩
        · obtain _ | less := fuel
          · omega
          rw [deflateVecLoop, hcall]
          exact if_pos hstop
        · rw [hn, take_length, append_assoc] at hstays
          exact hstays
      · -- out of room: 16 KiB are more than a call can add
        have hfull : p.length = stepOut := by
          by_contra hne
          refine hstop ⟨?_, by omega⟩
          rw [hdrained (by omega), drop_length]
          rfl
        have hstep : stepOut = 16 * 1024 := rfl
        rw [append_assoc] at hstays
        obtain ⟨d'', written, hloop, hdone, hsync⟩ := ih
          (inv.owed d'.core (flushOf flush) + d'.left.length + 2 * (input.drop n).length)
          (by rw [length_drop]; omega) hstays (Nat.le_refl _)
        refine ⟨d'', written, fun fuel hfuel => ?_, ?_, hsync⟩
        · obtain _ | less := fuel
          · omega
          rw [deflateVecLoop, hcall]
          simp only [if_neg hstop]
          exact hloop less (by rw [length_drop]; omega)
        · rw [append_assoc, take_append_drop] at hdone
          exact hdone

theorem deflateVec_open (hflush : flushOf flush ≠ .finish) {d : NodeDeflate K} {x before : Bytes}
    (hopen : Open inv k format head primed d x before none) (input : Bytes) : ∃ bound d' written,
    (∀ fuel, bound < fuel → deflateVec z k fuel d input flush = some (d', written)) ∧ Open inv k format head primed d'
    (x ++ input) (before ++ written) none ∧ (flushOf flush = .sync → inv.boundary d'.core) := by
  rw [← append_nil before] at hopen
  exact ⟨_, deflateVecLoop_open hflush _ hopen (Nat.le_refl _)⟩

/-! ## The end -/

/-- A stream that is being finished with `rest`: at most `owes` bytes are still to be written. -/
inductive Finishing (inv : z.Inverse raw) (k : Checksums) (format : Format) (head primed : Bytes)
    (d : NodeDeflate K) (out rest data : Bytes) (owes : Nat) : Prop
  | reading {x : Bytes} {asked : Option Bytes} (hopen : Open inv k format head primed d x out asked)
      (hasked : asked = none ∨ asked = some rest) (hdata : x ++ rest = data)
      (howes : inv.owed d.core .finish + d.left.length + 2 * rest.length + 8 ≤ owes)
  | draining (hclosed : Closed k raw format head primed d data out) (hrest : rest = [])
      (howes : d.left.length ≤ owes)

theorem Finishing.call {d d' : NodeDeflate K} {out rest data p : Bytes} {owes room n : Nat}
    (h : Finishing inv k format head primed d out rest data owes) (hroom : 0 < room)
    (hcall : d.deflate z k rest room zFinish = (d', n, p)) :
    (p.length < room ∧ rest.drop n = [] ∧ Closed k raw format head primed d' data (out ++ p) ∧ d'.left = []) ∨
    (p.length = room ∧ ∃ owes', owes' < owes ∧
      Finishing inv k format head primed d' (out ++ p) (rest.drop n) data owes') := by
  cases h with
  | draining hclosed hrest =>
    subst hrest
    obtain ⟨-, hwrote, hclosed', _, hdrained⟩ := deflate_closed hclosed hcall
    by_cases hshort : p.length < room
    · exact .inl ⟨hshort, drop_nil, hclosed', hdrained hshort⟩
    · exact .inr ⟨by omega, d'.left.length, by omega, .draining hclosed' drop_nil (Nat.le_refl _)⟩
  | reading hopen hasked hdata =>
    cases deflate_finish hopen hasked hcall with
    | closes hread hwrote hclosed hdrained =>
      have hnil : rest.drop n = [] := by rw [hread, drop_length]
      rw [hdata] at hclosed
      by_cases hshort : p.length < room
      · exact .inl ⟨hshort, hnil, hclosed, hdrained hshort⟩
      · exact .inr ⟨by omega, d'.left.length, by omega, .draining hclosed hnil (Nat.le_refl _)⟩
    | goesOn hread hwrote asked hasked' hopen' =>
      refine .inr ⟨hwrote, inv.owed d'.core .finish + d'.left.length + 2 * (rest.drop n).length + 8, ?_,
        .reading hopen' hasked' ?_ (Nat.le_refl _)⟩
      · rw [length_drop]
        omega
      · rw [append_assoc, take_append_drop, hdata]

theorem finishLoop_spec {room : Nat → Nat} (hroom : ∀ call, 0 < room call) : ∀ (owes : Nat) {s : Progress K}
    {data : Bytes} (call : Nat), Finishing inv k format head primed s.stream s.out s.unread data owes → ∃ s',
    (∀ fuel, owes < fuel → finishLoop z k room fuel call s = some s') ∧ s'.unread = [] ∧
    Closed k raw format head primed s'.stream data s'.out ∧ s'.stream.left = [] := by
  intro owes
  induction owes using Nat.strong_induction_on with
  | _ owes ih =>
    intro s data call h
    cases hcall : s.stream.deflate z k s.unread (room call) zFinish with
    | mk d' answer =>
      obtain ⟨n, p⟩ := answer
      have hunfold (less : Nat) : finishLoop z k room (less + 1) call s =
          if p.length < room call then some { stream := d', unread := s.unread.drop n, out := s.out ++ p }
          else finishLoop z k room less (call + 1) { stream := d', unread := s.unread.drop n, out := s.out ++ p } := by
        rw [finishLoop, hcall]
      rcases h.call (hroom call) hcall with ⟨hshort, hnil, hclosed, hleft⟩ | ⟨_, owes', hless, hgoes⟩
      · refine ⟨⟨d', s.unread.drop n, s.out ++ p⟩, fun fuel hfuel => ?_, hnil, hclosed, hleft⟩
        obtain _ | less := fuel
        · omega
        rw [hunfold, if_pos hshort]
      · obtain ⟨s', hloop, hdone⟩ := ih owes' hless (call + 1) (s := ⟨d', s.unread.drop n, s.out ++ p⟩) hgoes
        refine ⟨s', fun fuel hfuel => ?_, hdone⟩
        obtain _ | less := fuel
        · omega
        rw [hunfold, if_neg (by omega)]
        exact hloop less (by omega)

theorem deflateVecLoop_finish : ∀ (owes : Nat) {d : NodeDeflate K} {before out rest data : Bytes},
    Finishing inv k format head primed d (before ++ out) rest data owes → ∃ d' written,
    (∀ fuel, owes < fuel → deflateVecLoop z k zFinish fuel d rest out = some (d', written)) ∧
    Closed k raw format head primed d' data (before ++ written) ∧ d'.left = [] := by
  intro owes
  induction owes using Nat.strong_induction_on with
  | _ owes ih =>
    intro d before out rest data h
    cases hcall : d.deflate z k rest stepOut zFinish with
    | mk d' answer =>
      obtain ⟨n, p⟩ := answer
      have hunfold (less : Nat) : deflateVecLoop z k zFinish (less + 1) d rest out =
          if (rest.drop n).isEmpty ∧ p.length < stepOut then some (d', out ++ p)
          else deflateVecLoop z k zFinish less d' (rest.drop n) (out ++ p) := by
        rw [deflateVecLoop, hcall]
      rcases h.call (by decide) hcall with ⟨hshort, hnil, hclosed, hleft⟩ | ⟨_, owes', hless, hgoes⟩
      · rw [append_assoc] at hclosed
        refine ⟨d', out ++ p, fun fuel hfuel => ?_, hclosed, hleft⟩
        obtain _ | less := fuel
        · omega
        rw [hunfold, if_pos ⟨by rw [hnil]; rfl, hshort⟩]
      · rw [append_assoc] at hgoes
        obtain ⟨d'', written, hloop, hdone⟩ := ih owes' hless hgoes
        refine ⟨d'', written, fun fuel hfuel => ?_, hdone⟩
        obtain _ | less := fuel
        · omega
        rw [hunfold, if_neg (by omega)]
        exact hloop less (by omega)

/-! ## The schedule -/

/-- The operation does not ask the stream to finish. -/
def Op.staysOpen : Op → Bool
  | .call _ _ flush => flush ≠ zFinish
  | .vec _ flush => flush ≠ zFinish
  | .params _ => true

theorem flushOf_ne_finish (h : flush ≠ zFinish) : flushOf flush ≠ .finish := by
  have h4 : flush ≠ 4 := h
  unfold flushOf
  rw [if_neg h4]
  repeat' split
  all_goals decide

structure OnSchedule (inv : z.Inverse raw) (k : Checksums) (format : Format) (head primed data : Bytes)
    (s : Progress K) (x : Bytes) : Prop where
  stays : Open inv k format head primed s.stream x s.out none
  data : x ++ s.unread = data

variable {s : Progress K}

variable {x data : Bytes}

theorem apply_spec (h : OnSchedule inv k format head primed data s x) (op : Op)
    (hop : op.staysOpen) : ∃ bound s' x', (∀ fuel, bound < fuel → s.apply z k fuel op = some s') ∧
    OnSchedule inv k format head primed data s' x' := by
  obtain ⟨hopen, hdata⟩ := h
  cases op with
  | call size room flush =>
    have hflush := flushOf_ne_finish (of_decide_eq_true hop)
    cases hcall : s.stream.deflate z k (s.unread.take size) room flush with
    | mk d' answer =>
      obtain ⟨n, p⟩ := answer
      obtain ⟨hread, -, hstays, -⟩ := deflate_open hopen hflush hcall
      refine ⟨0, ⟨d', s.unread.drop n, s.out ++ p⟩, _, fun fuel _ => ?_, hstays, ?_⟩
      · rw [Progress.apply, hcall]
      · rw [length_take] at hread
        rw [take_take, Nat.min_eq_left (by omega), append_assoc, take_append_drop, hdata]
  | vec size =>
    have hflush := flushOf_ne_finish (of_decide_eq_true hop)
    obtain ⟨bound, d', written, hloop, hstays, -⟩ := deflateVec_open hflush hopen (s.unread.take size)
    refine ⟨bound, ⟨d', s.unread.drop size, s.out ++ written⟩, _, fun fuel hfuel => ?_, hstays, ?_⟩
    · rw [Progress.apply, hloop fuel hfuel]
      rfl
    · rw [append_assoc, take_append_drop, hdata]
  | params level =>
    obtain ⟨bound, d', written, hloop, hstays, hboundary⟩ :=
      deflateVec_open (show flushOf zSyncFlush ≠ .finish by decide) hopen []
    rw [append_nil] at hstays
    cases level with
    | none =>
      refine ⟨bound, ⟨d', s.unread, s.out ++ written⟩, x, fun fuel hfuel => ?_, hstays, hdata⟩
      rw [Progress.apply, params, hloop fuel hfuel]
      rfl
    | some level =>
      -- the flush has ended on a byte boundary, where the level may change
      obtain ⟨hnot, hbounded, htrailer, w, hrep, hout, hw⟩ := hstays
      refine ⟨bound, ⟨{ d' with core := z.setLevel d'.core (minizLevel level) }, s.unread, s.out ++ written⟩, x,
        fun fuel hfuel => ?_, ⟨hnot, hbounded, htrailer, w, ?_, hout, hw⟩, hdata⟩
      · rw [Progress.apply, params, hloop fuel hfuel]
        rfl
      · exact inv.rep_setLevel _ hrep (hboundary rfl)

theorem applyAll_spec (h : OnSchedule inv k format head primed data s x)
    {ops : List Op} (hops : ∀ op ∈ ops, op.staysOpen) : ∃ bound s' x',
    (∀ fuel, bound < fuel → s.applyAll z k fuel ops = some s') ∧ OnSchedule inv k format head primed data s' x' := by
  induction ops generalizing s x with
  | nil => exact ⟨0, s, x, fun fuel _ => rfl, h⟩
  | cons op ops ih =>
    obtain ⟨bound, s', x', happly, h'⟩ := apply_spec h op (hops op (mem_cons_self ..))
    obtain ⟨bound', s'', x'', hall, h''⟩ := ih h' fun op hmem => hops op (mem_cons_of_mem _ hmem)
    refine ⟨max bound bound', s'', x'', fun fuel hfuel => ?_, h''⟩
    rw [Progress.applyAll, happly fuel (by omega), Option.bind_some, hall fuel (by omega)]

def Ending.HasRoom : Ending → Prop
  | .drive room => ∀ call, 0 < room call
  | .vec => True

theorem finish_spec (h : OnSchedule inv k format head primed data s x) (ending : Ending) (hroom : ending.HasRoom) :
    ∃ bound s', (∀ fuel, bound < fuel → s.finish z k fuel ending = some s') ∧ s'.unread = [] ∧
    Closed k raw format head primed s'.stream data s'.out ∧ s'.stream.left = [] := by
  have hfinishing : Finishing inv k format head primed s.stream s.out s.unread data _ :=
    .reading h.stays (.inl rfl) h.data (Nat.le_refl _)
  cases ending with
  | drive => exact ⟨_, finishLoop_spec hroom _ 0 hfinishing⟩
  | vec =>
    rw [← append_nil s.out] at hfinishing
    obtain ⟨d', written, hloop, hclosed, hleft⟩ := deflateVecLoop_finish _ hfinishing
    refine ⟨inv.owed s.stream.core .finish + s.stream.left.length + 2 * s.unread.length + 8,
      ⟨d', [], s.out ++ written⟩, fun fuel hfuel => ?_, rfl, hclosed, hleft⟩
    rw [Progress.finish, deflateVec, hloop fuel hfuel]
    rfl

/-- What a complete stream is: the header, a body that decodes to the data, and the trailer. -/
def Complete (raw : m.Incremental) (k : Checksums) (format : Format) (level : Int) (dictionary : Option Bytes)
    (data out : Bytes) : Prop :=
  ∃ body, raw.decode (primedWith format dictionary) body = ⟨data, .ended body.length⟩ ∧
    out = header k format level dictionary ++ body ++ ((newTrailer format).update k data).bytes k

/-- **Every schedule ends with the whole stream written**, and no byte of it is lost or written twice. -/
theorem compressAll_written (inv : z.Inverse raw) (k : Checksums) (format : Format) (level : Int)
    (dictionary : Option Bytes) (data : Bytes) {ops : List Op} (hops : ∀ op ∈ ops, op.staysOpen)
    {ending : Ending} (hroom : ending.HasRoom) :
    ∃ bound s, (∀ fuel, bound < fuel → compressAll z k fuel format level dictionary data ops ending = some s) ∧
      s.unread = [] ∧ Complete raw k format level dictionary data s.out := by
  obtain ⟨bound, d, hnew, hopen⟩ := new_spec inv k format level dictionary
  obtain ⟨bound', s, x, happly, h⟩ := applyAll_spec (s := ⟨d, data, []⟩) ⟨hopen, rfl⟩ hops
  obtain ⟨bound'', s', hfinish, hunread, ⟨-, w, hdecode, hout⟩, hleft⟩ := finish_spec h ending hroom
  refine ⟨max bound (max bound' bound''), s', fun fuel hfuel => ?_, hunread, w, hdecode, ?_⟩
  · rw [compressAll, hnew fuel (by omega), Option.bind_some, happly fuel (by omega), Option.bind_some,
      hfinish fuel (by omega)]
  · rw [hleft, append_nil] at hout
    exact hout

end Oam.Zlib.NodeDeflate
