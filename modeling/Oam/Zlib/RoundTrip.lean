/-
  What a deflate stream writes, an inflate stream of the same format reads back: `DeflateRuns` says what every schedule
  writes, `InflateCuts` that every run of the inflater ends where the IDEAL framer ends, and what is left is one run of
  the ideal framer over such a stream.
-/
import Oam.Zlib.DeflateRuns
import Oam.Zlib.InflateCuts
import Oam.Zlib.StoredDeflate

namespace Oam.Zlib

/-- The `Wrap` that reads a format. -/
def Format.wrap : Format → Wrap
  | .gzip => .gzip
  | .deflate => .zlib
  | .deflateRaw => .raw

/-- The check that a format's body feeds, before its first byte. -/
def Format.check : Format → Check
  | .gzip => .crc []
  | .deflate => .adler 1
  | .deflateRaw => .none

namespace RoundTrip

open NodeDeflate NodeInflate Zlib.Ideal Bytes Drive.Transducer List

variable {C : Type} {m : Miniz C} (raw : m.Incremental) (k : Checksums)

structure Ready (format : Format) (c : Control) : Prop where
  phase : c.phase = .body
  check : c.check = format.check
  trailer : c.trailer.length = 8

variable {c : Control} {b : UInt8} {dictionary : Option Bytes}

theorem absorb_accepted {c' : Control} (hreading : c.phase.reading)
    (hbyte : c.headerByte k b = (c', .ok dictionary)) (out : Bytes) :
    (transducer raw k).absorb (.framing c out) b = enter c' dictionary out := by
  show absorb raw k (.framing c out) b = _
  rw [absorb_reading raw k hreading, frame, hbyte]

theorem enter_body (h : c.phase = .body) (dictionary : Option Bytes) (out : Bytes) :
    enter c dictionary out = .body c ((dictionary.map lastWindow).getD []) [] out := if_pos h

/-! ## The header -/

theorem minizLevel_le (level : Int) : minizLevel level ≤ 9 := by
  unfold minizLevel
  split <;> omega

theorem headerByte_lastFixed (hphase : c.phase = .gzFixed 1) (hflags : c.flags = 0) (b : UInt8) :
    c.headerByte k b = ({ c with headerCrc := c.headerCrc ++ [b], phase := .body }, .ok none) := by
  obtain ⟨wrap, phase, members, check, headerCrc, held, flags, xlen, trailer, dictionary⟩ := c
  obtain rfl : phase = .gzFixed 1 := hphase
  have hflag (mask : UInt8) : hasFlag flags mask = false := by
    rw [show flags = 0 from hflags]
    simp [hasFlag]
  let covered : Control :=
    ⟨wrap, .gzFixed 1, members, check, headerCrc ++ [b], held, flags, xlen, trailer, dictionary⟩
  have hnext : covered.afterExtra = .body := by
    simp only [covered, Control.afterExtra, Control.afterName, Control.afterComment, hflag, if_false,
      Bool.false_eq_true]
  show (if hasFlag flags gzFextra then covered.goto .gzXlenLo else covered.goto covered.afterExtra) = _
  rw [hflag, if_neg Bool.false_ne_true, hnext]
  rfl

theorem absorbAll_gzipHeader (dictionary : Option Bytes) (level : Nat) : ∃ c, (transducer raw k).absorbAll
    (idealStart m .gzip dictionary) (gzipHeader level) = .body c [] [] [] ∧ Ready .gzip c := by
  have hfirst : ∃ c, (transducer raw k).absorbAll (idealStart m .gzip dictionary)
      ((gzipHeader level).take 9) = .framing c [] ∧
      c.phase = .gzFixed 1 ∧ c.flags = 0 ∧ c.check = .crc [] ∧ c.trailer.length = 8 := by
    refine ⟨_, rfl, ?_⟩
    exact ⟨rfl, rfl, rfl, rfl⟩
  obtain ⟨c, hfirst, hphase, hflags, hcheck, htrailer⟩ := hfirst
  have hsplit : gzipHeader level = (gzipHeader level).take 9 ++ [255] := rfl
  rw [hsplit, absorbAll_append, hfirst]
  exact ⟨_, absorb_accepted raw k (by rw [hphase]; rfl) (headerByte_lastFixed k hphase hflags 255) [], rfl, hcheck,
    htrailer⟩

theorem absorbAll_zlibHeader {level : Nat} (hlevel : level ≤ 9) (fdict : Bool) (dictionary : Option Bytes) : ∃ c,
    (transducer raw k).absorbAll (idealStart m .zlib dictionary) (zlibHeader level fdict) =
    enter c none [] ∧ c.dictionary = dictionary.filter (fun d => !d.isEmpty) ∧ c.trailer = replicate 8 0 ∧
    if fdict then c.phase = .dictId 0 else Ready .deflate c := by
  obtain ⟨cmf, flg, hheader, hmod, hmethod, hwindow, hflag⟩ : ∃ cmf flg, zlibHeader level fdict = [cmf, flg] ∧
      (cmf.toNat * 256 + flg.toNat) % 31 = 0 ∧ cmf &&& 0x0f = 8 ∧ cmf.toNat / 16 + 8 ≤ 15 ∧
      hasFlag flg zlibFdict = fdict := by
    refine ⟨_, _, rfl, ?_⟩
    revert level fdict
    decide +kernel
  have hfirst : ∃ c, (transducer raw k).absorb (idealStart m .zlib dictionary) cmf = .framing c [] ∧
      c.phase = .head1 ∧ c.wrap = .zlib ∧ c.held = cmf ∧ c.dictionary = dictionary.filter (fun d => !d.isEmpty) ∧
      c.trailer = replicate 8 0 := by
    refine ⟨_, rfl, ?_⟩
    exact ⟨rfl, rfl, rfl, rfl, rfl⟩
  obtain ⟨c, hfirst, hphase, hwrap, rfl, hdictionary, htrailer⟩ := hfirst
  rw [hheader, absorbAll_cons, absorbAll_cons, absorbAll_nil, hfirst]
  have hbyte : c.headerByte k flg =
      ({ c with headerCrc := c.headerCrc ++ [flg], check := if fdict then c.check else .adler 1,
                phase := if fdict then .dictId 0 else .body }, .ok none) := by
    have hnarrow : ¬ c.held.toNat / 16 + 8 > 15 := by omega
    obtain ⟨wrap, phase, members, check, headerCrc, held, flags, xlen, trailer, _⟩ := c
    obtain rfl : phase = .head1 := hphase
    obtain rfl : wrap = .zlib := hwrap
    show Control.zlibHeader ⟨.zlib, .head1, members, check, headerCrc ++ [flg], held, flags, xlen, trailer, _⟩
      held flg = _
    simp only [Control.zlibHeader, hmod, hmethod, hnarrow, hflag, ne_eq, not_true_eq_false, if_false, Control.goto]
    cases fdict <;> rfl
  refine ⟨_, absorb_accepted raw k (by rw [hphase]; rfl) hbyte [], hdictionary, htrailer, ?_⟩
  cases fdict with
  | false => exact ⟨rfl, rfl, by rw [htrailer]; rfl⟩
  | true => rfl

theorem beOfU32_cases (word : UInt32) : ∃ a b c d, beOfU32 word = [a, b, c, d] ∧ u32OfBe [a, b, c, d] = word :=
  ⟨_, _, _, _, rfl, u32OfBe_beOfU32 word⟩

theorem leOfU32_cases (word : UInt32) : ∃ a b c d, leOfU32 word = [a, b, c, d] ∧ u32OfLe [a, b, c, d] = word :=
  ⟨_, _, _, _, rfl, u32OfLe_leOfU32 word⟩

theorem trailer_cases {trailer : Bytes} (h : trailer.length = 8) :
    ∃ a b c d a' b' c' d', trailer = [a, b, c, d, a', b', c', d'] := by
  match trailer, h with
  | [a, b, c, d, a', b', c', d'], _ => exact ⟨a, b, c, d, a', b', c', d', rfl⟩

theorem absorbAll_dictId {dict : Bytes} (hphase : c.phase = .dictId 0) (hdictionary : c.dictionary = some dict)
    (htrailer : c.trailer.length = 8) : ∃ c', (transducer raw k).absorbAll (.framing c [])
    (beOfU32 (k.adler32 1 dict)) = .body c' (lastWindow dict) [] [] ∧ Ready .deflate c' := by
  obtain ⟨b₀, b₁, b₂, b₃, hbytes, hword⟩ := beOfU32_cases (k.adler32 1 dict)
  obtain ⟨t₀, t₁, t₂, t₃, t₄, t₅, t₆, t₇, htrailer⟩ := trailer_cases htrailer
  have hlast : { c with phase := .dictId 3, trailer := [b₀, b₁, b₂, t₃, t₄, t₅, t₆, t₇] }.headerByte k b₃ =
      ({ c with check := .adler 1, phase := .body, dictionary := none,
                trailer := [b₀, b₁, b₂, b₃, t₄, t₅, t₆, t₇] }, .ok (some dict)) := by
    have hid : ¬ k.adler32 1 dict ≠ u32OfBe [b₀, b₁, b₂, b₃] := by rw [hword]; simp
    show Control.presetDictionary k { c with phase := .dictId 3, trailer := [b₀, b₁, b₂, b₃, t₄, t₅, t₆, t₇] } = _
    simp only [Control.presetDictionary, hdictionary]
    exact if_neg hid
  have hfirst : (transducer raw k).absorbAll (.framing c []) [b₀, b₁, b₂] =
      .framing { c with phase := .dictId 3, trailer := [b₀, b₁, b₂, t₃, t₄, t₅, t₆, t₇] } [] := by
    obtain ⟨_, phase, _, _, _, _, _, _, trailer, _⟩ := c
    obtain rfl : phase = .dictId 0 := hphase
    obtain rfl : trailer = _ := htrailer
    rfl
  rw [hbytes, show [b₀, b₁, b₂, b₃] = [b₀, b₁, b₂] ++ [b₃] from rfl, absorbAll_append, hfirst,
    absorbAll_cons, absorbAll_nil, absorb_accepted raw k rfl hlast [], enter_body rfl,
    Option.map_some, Option.getD_some]
  exact ⟨_, rfl, rfl, rfl, rfl⟩

theorem absorbAll_header (format : Format) (level : Int) (dictionary : Option Bytes) :
    ∃ c, (transducer raw k).absorbAll (idealStart m format.wrap dictionary)
        (header k format level dictionary) = .body c (primedWith format dictionary) [] [] ∧ Ready format c := by
  cases format with
  | gzip =>
    have hnone : primedWith .gzip dictionary = [] := by
      rw [primedWith, show dictionaryFor .gzip dictionary = none by cases dictionary <;> simp [dictionaryFor]]
      rfl
    rw [hnone]
    exact absorbAll_gzipHeader raw k dictionary _
  | deflateRaw =>
    have hsame : dictionaryFor .deflateRaw dictionary = dictionary.filter fun d => !d.isEmpty := by
      cases dictionary <;> simp [dictionaryFor]
    have hbody : (withDictionary m .raw dictionary).control.phase = .body := rfl
    refine ⟨(withDictionary m .raw dictionary).control, ?_, rfl, rfl, rfl⟩
    rw [primedWith, hsame]
    exact enter_body hbody _ []
  | deflate =>
    have hsame : dictionaryFor .deflate dictionary = dictionary.filter fun d => !d.isEmpty := by
      cases dictionary <;> simp [dictionaryFor]
    obtain ⟨c, hread, hdictionary, htrailer, hready⟩ :=
      absorbAll_zlibHeader raw k (minizLevel_le level) (dictionaryFor .deflate dictionary).isSome dictionary
    rw [header, primedWith, absorbAll_append, show Format.wrap .deflate = .zlib from rfl, hread]
    rw [← hsame] at hdictionary
    cases hdict : dictionaryFor .deflate dictionary with
    | none =>
      rw [hdict, Option.isSome_none, if_neg Bool.false_ne_true] at hready
      exact ⟨c, enter_body hready.phase none [], hready⟩
    | some dict =>
      rw [hdict, Option.isSome_some, if_pos rfl] at hready
      rw [hdict] at hdictionary
      rw [show enter c none [] = .framing c [] by rw [enter, if_neg (by rw [hready]; simp)],
        Option.map_some, Option.getD_some]
      exact absorbAll_dictId raw k hready hdictionary (by rw [htrailer]; rfl)

/-! ## The body -/

variable {data : Bytes}

theorem absorbAll_body {primed body : Bytes} (hdecode : raw.decode primed body = ⟨data, .ended body.length⟩) :
    (transducer raw k).absorbAll (.body c primed [] []) body = .framing (c.produce k data true) data := by
  have hstart : Ideal.body c primed [] [] = inBody raw k c primed [] [] := by
    rw [inBody, raw.decode_nil]
    rfl
  rw [hstart, absorbAll_inBody raw k c primed [] [] body, nil_append, inBody, hdecode]
  · rfl
  · intro read hend
    rw [nil_append, hdecode] at hend
    cases hend
    rfl

/-! ## The trailer -/

theorem absorb_ending {trailer : Bytes} (hreading : c.phase.reading)
    (hbyte : c.headerByte k b = ({ c with trailer, phase := c.afterStream }, .ok none)) (out : Bytes) :
    ∃ c', (transducer raw k).absorb (.framing c out) b = .framing c' out ∧ c'.phase = c.afterStream := by
  refine ⟨{ c with trailer, phase := c.afterStream }, ?_, rfl⟩
  rw [absorb_accepted raw k hreading hbyte, enter, if_neg]
  rcases c.afterStream_cases with h | h <;> simp [h]

variable {fed : Bytes}

theorem absorbAll_zlibTrailer {sum : UInt32} (hphase : c.phase = .zlibTrailer 0) (hcheck : c.check = .adler sum)
    (htrailer : c.trailer.length = 8) (out : Bytes) : ∃ c', (transducer raw k).absorbAll (.framing c out)
    (beOfU32 sum) = .framing c' out ∧ c'.phase = c.afterStream := by
  obtain ⟨b₀, b₁, b₂, b₃, hbytes, hword⟩ := beOfU32_cases sum
  obtain ⟨t₀, t₁, t₂, t₃, t₄, t₅, t₆, t₇, htrailer⟩ := trailer_cases htrailer
  obtain ⟨wrap, phase, members, check, headerCrc, held, flags, xlen, trailer, dictionary⟩ := c
  obtain rfl : phase = .zlibTrailer 0 := hphase
  obtain rfl : check = .adler sum := hcheck
  obtain rfl : trailer = _ := htrailer
  rw [hbytes]
  exact absorb_ending raw k
    (c := ⟨wrap, .zlibTrailer 3, members, .adler sum, headerCrc, held, flags, xlen, [b₀, b₁, b₂, t₃, t₄, t₅, t₆, t₇],
      dictionary⟩) rfl (if_neg (not_not.mpr (congrArg Check.adler hword.symm))) out

theorem absorbAll_gzTrailer (hphase : c.phase = .gzTrailer 0) (hcheck : c.check = .crc fed)
    (htrailer : c.trailer.length = 8) (out : Bytes) : ∃ c', (transducer raw k).absorbAll (.framing c out)
    (leOfU32 (k.crc32 fed) ++ leOfU32 (crcAmount fed)) = .framing c' out ∧ c'.phase = c.afterStream := by
  obtain ⟨b₀, b₁, b₂, b₃, hcrcBytes, hcrc⟩ := leOfU32_cases (k.crc32 fed)
  obtain ⟨b₄, b₅, b₆, b₇, hlenBytes, hlen⟩ := leOfU32_cases (crcAmount fed)
  obtain ⟨t₀, t₁, t₂, t₃, t₄, t₅, t₆, t₇, htrailer⟩ := trailer_cases htrailer
  obtain ⟨wrap, phase, members, check, headerCrc, held, flags, xlen, trailer, dictionary⟩ := c
  obtain rfl : phase = .gzTrailer 0 := hphase
  obtain rfl : check = .crc fed := hcheck
  obtain rfl : trailer = _ := htrailer
  let at_ (phase : Phase) (trailer : Bytes) : Control :=
    ⟨wrap, phase, members, .crc fed, headerCrc, held, flags, xlen, trailer, dictionary⟩
  have hfourth : (transducer raw k).absorbAll (.framing (at_ (.gzTrailer 0) [t₀, t₁, t₂, t₃, t₄, t₅, t₆, t₇]) out)
      [b₀, b₁, b₂, b₃] = .framing (at_ (.gzTrailer 4) [b₀, b₁, b₂, b₃, t₄, t₅, t₆, t₇]) out :=
    absorb_accepted raw k rfl
      (c := at_ (.gzTrailer 3) [b₀, b₁, b₂, t₃, t₄, t₅, t₆, t₇]) (if_neg (not_not.mpr hcrc)) out
  rw [hcrcBytes, hlenBytes, absorbAll_append, hfourth]
  exact absorb_ending raw k (c := at_ (.gzTrailer 7) [b₀, b₁, b₂, b₃, b₄, b₅, b₆, t₇]) rfl
    (if_neg (not_not.mpr hlen)) out

variable {format : Format}

/-! ## There and back -/

theorem absorbAll_complete {level : Int} {out : Bytes} (h : Complete raw k format level dictionary data out) :
    ∃ c, (transducer raw k).absorbAll (idealStart m format.wrap dictionary) out = .framing c data ∧
      (c.phase = .between ∨ c.phase = .done) := by
  obtain ⟨body, hdecode, rfl⟩ := h
  obtain ⟨c, hheader, hready⟩ := absorbAll_header raw k format level dictionary
  rw [absorbAll_append, absorbAll_append, hheader, absorbAll_body raw k hdecode]
  obtain ⟨-, hcheck, htrailer⟩ := hready
  have hfed : (c.produce k data true).check = format.check.update k data := by rw [← hcheck]; rfl
  have hphase : (c.produce k data true).phase = (c.produce k data true).afterBody := rfl
  rw [Control.afterBody, hfed] at hphase
  cases format with
  | deflateRaw => exact ⟨_, rfl, .inr hphase⟩
  | deflate =>
    obtain ⟨c', hread, hend⟩ := absorbAll_zlibTrailer raw k hphase hfed htrailer data
    exact ⟨c', hread, hend ▸ Control.afterStream_cases _⟩
  | gzip =>
    obtain ⟨c', hread, hend⟩ := absorbAll_gzTrailer raw k hphase hfed htrailer data
    exact ⟨c', hread, hend ▸ Control.afterStream_cases _⟩

end RoundTrip

namespace NodeDeflate

variable {C K : Type} {m : Miniz C} {raw : m.Incremental} {z : Compressor K}

/-- **There and back.** Data compressed under any schedule of calls, flushes and level changes, and then ended, is given
    back by every reader of the format, however it is fed. -/
theorem inflate_compressAll (inv : z.Inverse raw) (k : Checksums) (format : Format) (level : Int)
    (dictionary : Option Bytes) (data : Bytes) {ops : List Op} (hops : ∀ op ∈ ops, op.staysOpen = true)
    {ending : Ending} (hroom : ending.HasRoom) : ∃ bound s,
    (∀ fuel, bound < fuel → compressAll z k fuel format level dictionary data ops ending = some s) ∧ s.unread = [] ∧
    Complete raw k format level dictionary data s.out ∧ ∀ (room : Nat → Nat) (chunks : List Bytes),
    (∀ call, 0 < room call) → chunks.flatten = s.out → ∀ fuel, s.out.length + data.length < fuel → ∃ n,
    NodeInflate.run m k format.wrap dictionary room fuel chunks = some (.finished n data []) ∧ n.finish = .ok () := by
  obtain ⟨bound, s, hrun, hunread, hcomplete⟩ := compressAll_written inv k format level dictionary data hops hroom
  refine ⟨bound, s, hrun, hunread, hcomplete, fun room chunks hpositive hchunks fuel hfuel => ?_⟩
  obtain ⟨c, hread, hend⟩ := RoundTrip.absorbAll_complete raw k hcomplete
  obtain ⟨r, hrun, hverdict⟩ :=
    NodeInflate.run_verdict k raw format.wrap dictionary hpositive hchunks (by rw [hread]; exact hfuel)
  rw [hread] at hverdict
  cases hverdict with
  | failed herr => cases herr
  | @finished n _ _ hsettled =>
    refine ⟨n, hrun, if_pos ?_⟩
    rw [hsettled, Ideal.isComplete]
    rcases hend with hend | hend <;> simp [hend]

/-- `ab` as zlib with a preset dictionary: the first byte and a sync flush with 3 bytes of room, the level set again,
    the second byte, and the end one byte at a time. -/
theorem inflate_compressAll_zlib :
    ∃ bound s, (∀ fuel, bound < fuel → compressAll Stored.compressor .standard fuel .deflate 0 (some [0x61])
        [0x61, 0x62] [.call 1 3 2, .params (some 0), .vec 1 0] (.drive fun _ => 1) = some s) ∧
      s.unread = [] ∧ Complete Stored.incremental .standard .deflate 0 (some [0x61]) [0x61, 0x62] s.out ∧
      ∀ (room : Nat → Nat) (chunks : List Bytes), (∀ call, 0 < room call) → chunks.flatten = s.out →
        ∀ fuel, s.out.length + [0x61, 0x62].length < fuel →
          ∃ n, NodeInflate.run Stored.miniz .standard .zlib (some [0x61]) room fuel chunks =
              some (.finished n [0x61, 0x62] []) ∧ n.finish = .ok () :=
  inflate_compressAll Stored.inverse .standard .deflate 0 (some [0x61]) [0x61, 0x62] (by decide)
    (show ∀ _, 0 < 1 from fun _ => Nat.one_pos)

/-- `Z_FINISH` on the first byte ends the stream there: the second one is never read, and the reader gives
    back the first. -/
theorem early_finish_ends : (compressAll Stored.compressor .standard 9 .gzip 0 none [0x61, 0x62] [.call 1 100 zFinish]
      (.drive fun _ => 100)).map (fun s => (s.unread, s.out)) = some ([0x62], NodeInflate.gzipOfA) ∧
    (NodeInflate.run Stored.miniz .standard .gzip none (fun _ => 100) 100 [NodeInflate.gzipOfA]).map
      (fun | .finished n out _ => (n.isComplete, out) | .failed _ out => (false, out)) = some (true, [0x61]) := by
  decide +kernel

end NodeDeflate

end Oam.Zlib
