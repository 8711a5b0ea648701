import Limine.Image.Qoi
import Limine.Lib.Bytes

/-!
# The decoder against the format

At every turn of the loop what is left to store is the run that is being repeated and then the
pixels of the chunks that have not been read (`Decoder.rest`), with the packed index as the
format's running array.
-/

namespace Limine.Image

open Lib

/-! ## Bytes -/

/-- The tags are ranges of the byte. -/
theorem tags : ∀ op : UInt8, (op &&& QOI_OP_MASK = QOI_OP_INDEX ↔ op < 0x40) ∧
    (op &&& QOI_OP_MASK = QOI_OP_DIFF ↔ 0x40 ≤ op ∧ op < 0x80) ∧
    (op &&& QOI_OP_MASK = QOI_OP_LUMA ↔ 0x80 ≤ op ∧ op < 0xc0) := by
  apply forall_byte
  decide +kernel

/-- The fields of a byte as quotients and remainders. -/
theorem fields : ∀ op : UInt8,
    (op &&& 0x3f).toNat = op.toNat % 64 ∧ op &&& 0x3f = op % 64 ∧ op >>> 4 &&& 3 = op / 16 % 4 ∧
      op >>> 2 &&& 3 = op / 4 % 4 ∧ op &&& 3 = op % 4 ∧ op >>> 4 &&& 0xf = op / 16 ∧
      op &&& 0xf = op % 16 := by
  apply forall_byte
  decide +kernel

theorem addInt_sub (x n k : UInt8) : addInt x (n.toNat - k.toNat) = x + (n - k) := by
  unfold addInt
  rw [Int.sub_eq_add_neg, UInt8.ofInt_add, UInt8.ofInt_add, UInt8.ofInt_neg, ofInt_toNat,
    ofInt_toNat, ofInt_toNat, UInt8.sub_eq_add_neg]

theorem addInt_add_sub (x m j n k : UInt8) :
    addInt x ((m.toNat - j.toNat : Int) + n.toNat - k.toNat) = x + ((m - j) + (n - k)) := by
  unfold addInt
  rw [Int.sub_eq_add_neg, Int.sub_eq_add_neg, UInt8.ofInt_add, UInt8.ofInt_add, UInt8.ofInt_add,
    UInt8.ofInt_add, UInt8.ofInt_neg, UInt8.ofInt_neg, ofInt_toNat, ofInt_toNat, ofInt_toNat,
    ofInt_toNat, ofInt_toNat, UInt8.sub_eq_add_neg, UInt8.sub_eq_add_neg, UInt8.add_assoc (m + -j)]

def unpack (v : UInt32) : Qoi.Pixel :=
  ⟨v.toUInt8, (v >>> 8).toUInt8, (v >>> 16).toUInt8, (v >>> 24).toUInt8⟩

theorem unpack_pack (r g b a : UInt8) : unpack (pack r g b a) = ⟨r, g, b, a⟩ := by
  unfold unpack pack
  congr 1
  all_goals
    apply UInt8.toBitVec_inj.mp
    ext i hi
    simp
    try grind

theorem xrgb_toNat (r g b : UInt8) :
    (xrgb r g b).toNat = r.toNat * 2 ^ 16 + g.toNat * 2 ^ 8 + b.toNat := by
  have hg := g.toNat_lt
  have hb : b.toNat < 2 ^ 8 := b.toNat_lt
  unfold xrgb
  rw [UInt32.toNat_or, UInt32.toNat_or, toNat_shiftLeft r (by decide),
    toNat_shiftLeft g (by decide), UInt8.toNat_toUInt32, Nat.or_assoc]
  show r.toNat <<< 16 ||| (g.toNat <<< 8 ||| b.toNat) = _
  rw [shiftLeft_or hb, shiftLeft_or (prepend_lt hg hb), Nat.add_assoc]

/-! ## The source -/

theorem Source.read_of_lt {src : Source} {i : Nat} (h : i < src.size) :
    src.read i = .ok (src.bytes i) := if_pos h

/-- What is left of the chunks from `pos` on. -/
def Source.cut (src : Source) (stop pos : Nat) : List UInt8 := src.bytes.bytes pos (stop - pos)

theorem Source.cut_of_ge {src : Source} {stop pos : Nat} (h : stop ≤ pos) : src.cut stop pos = [] := by
  unfold Source.cut
  rw [Nat.sub_eq_zero_of_le h]
  rfl

theorem Source.cut_of_lt {src : Source} {stop pos : Nat} (h : pos < stop) :
    src.cut stop pos = src.bytes pos :: src.cut stop (pos + 1) := by
  unfold Source.cut
  rw [show stop - pos = 1 + (stop - (pos + 1)) by omega, ByteMemory.bytes_append]
  rfl

theorem Source.length_cut (src : Source) (stop pos : Nat) :
    (src.cut stop pos).length = stop - pos := by
  simp [Source.cut]

/-! ## One chunk -/

def Decoder.pixel (d : Decoder) : Qoi.Pixel := ⟨d.r, d.g, d.b, d.a⟩

def Decoder.running (d : Decoder) : Qoi.Running := ⟨d.pixel, fun i => unpack (d.index.get i)⟩

/-- Everything a chunk does, for bytes that begin with it and for those cut short. -/
def Decodes (src : Source) (stop : Nat) (d : Decoder) (result : Except Stop Decoder) :
    Option (Qoi.Chunk × List UInt8) → Prop
  | none => result = .error .null
  | some (c, rest) => ∃ d', result = .ok d' ∧ d'.index = d.index ∧ d'.pixel = c.pixel d.running ∧
      c.length = d'.run + 1 ∧ d'.pos ≤ stop ∧ src.cut stop d'.pos = rest

theorem decodeOp_spec {src : Source} {stop : Nat} (hstop : stop ≤ src.size) {d : Decoder}
    (hpos : d.pos ≤ stop) (hrun : d.run = 0) (op : UInt8) :
    Decodes src stop d (decodeOp src stop op d) (Qoi.Chunk.parse (op :: src.cut stop d.pos)) := by
  obtain ⟨h63, h63', hr, hg, hb, hhigh, hlow⟩ := fields op
  have hlen := src.length_cut stop d.pos
  unfold decodeOp QOI_OP_RGB QOI_OP_RGBA Qoi.Chunk.parse
  dsimp only
  by_cases hrgb : op = 0xfe
  · rw [if_pos hrgb, if_pos hrgb]
    by_cases hshort : stop - d.pos < 3
    · rw [if_pos hshort]
      rcases h : src.cut stop d.pos with _ | ⟨r, _ | ⟨g, _ | ⟨b, rest⟩⟩⟩
      · rfl
      · rfl
      · rfl
      · rw [h] at hlen
        simp only [List.length_cons] at hlen
        omega
    · rw [if_neg hshort, Source.cut_of_lt (by omega), Source.cut_of_lt (by omega),
        Source.cut_of_lt (by omega), Source.read_of_lt (by omega), Source.read_of_lt (by omega),
        Source.read_of_lt (by omega)]
      exact ⟨_, rfl, rfl, rfl, by rw [hrun]; rfl, (by show d.pos + 3 ≤ stop; omega), rfl⟩
  rw [if_neg hrgb, if_neg hrgb]
  by_cases hrgba : op = 0xff
  · rw [if_pos hrgba, if_pos hrgba]
    by_cases hshort : stop - d.pos < 4
    · rw [if_pos hshort]
      rcases h : src.cut stop d.pos with _ | ⟨r, _ | ⟨g, _ | ⟨b, _ | ⟨a, rest⟩⟩⟩⟩
      · rfl
      · rfl
      · rfl
      · rfl
      · rw [h] at hlen
        simp only [List.length_cons] at hlen
        omega
    · rw [if_neg hshort, Source.cut_of_lt (by omega), Source.cut_of_lt (by omega),
        Source.cut_of_lt (by omega), Source.cut_of_lt (by omega), Source.read_of_lt (by omega),
        Source.read_of_lt (by omega), Source.read_of_lt (by omega), Source.read_of_lt (by omega)]
      exact ⟨_, rfl, rfl, rfl, by rw [hrun]; rfl, (by show d.pos + 4 ≤ stop; omega), rfl⟩
  rw [if_neg hrgba, if_neg hrgba]
  by_cases hindex : op < 0x40
  · rw [if_pos ((tags op).1.mpr hindex), if_pos hindex]
    have hi : (⟨(op &&& 0x3f).toNat, and_63_lt op⟩ : Fin 64) = Fin.ofNat 64 op.toNat :=
      Fin.ext h63
    refine ⟨_, rfl, rfl, ?_, by rw [hrun]; rfl, hpos, rfl⟩
    show unpack (d.index.get ⟨(op &&& 0x3f).toNat, and_63_lt op⟩) = unpack (d.index.get _)
    rw [hi]
  rw [if_neg (mt (tags op).1.mp hindex), if_neg hindex]
  by_cases hdiff : op < 0x80
  · rw [if_pos ((tags op).2.1.mpr ⟨UInt8.not_lt.mp hindex, hdiff⟩), if_pos hdiff]
    refine ⟨_, rfl, rfl, ?_, by rw [hrun]; rfl, hpos, rfl⟩
    have hbias : ∀ x n : UInt8, addInt x (n.toNat - 2) = x + (n - 2) := fun x n => addInt_sub x n 2
    rw [← hr, ← hg, ← hb]
    simp only [Decoder.pixel, Decoder.running, Qoi.Chunk.pixel, hbias]
  rw [if_neg (fun h => hdiff ((tags op).2.1.mp h).2), if_neg hdiff]
  by_cases hluma : op < 0xc0
  · rw [if_pos ((tags op).2.2.mpr ⟨UInt8.not_lt.mp hdiff, hluma⟩), if_pos hluma]
    by_cases hshort : d.pos ≥ stop
    · rw [if_pos hshort, Source.cut_of_ge hshort]
      rfl
    · rw [if_neg hshort, Source.cut_of_lt (by omega), Source.read_of_lt (by omega)]
      obtain ⟨-, -, -, -, -, hhigh, hlow⟩ := fields (src.bytes d.pos)
      refine ⟨_, rfl, rfl, ?_, by rw [hrun]; rfl, (by show d.pos + 1 ≤ stop; omega), rfl⟩
      have hbias : ∀ x n : UInt8, addInt x (n.toNat - 32) = x + (n - 32) := fun x n =>
        addInt_sub x n 32
      have hbias' : ∀ x m n : UInt8, addInt x ((m.toNat - 32 : Int) + n.toNat - 8) =
          x + ((m - 32) + (n - 8)) := fun x m n => addInt_add_sub x m 32 n 8
      rw [← hhigh, ← hlow, ← h63']
      simp only [Decoder.pixel, Decoder.running, Qoi.Chunk.pixel, hbias, hbias']
  · rw [if_neg (fun h => hluma ((tags op).2.2.mp h).2), if_neg hluma]
    exact ⟨_, rfl, rfl, rfl, by rw [← h63]; rfl, hpos, rfl⟩

/-! ## The loop -/

/-- The pixels that are left to store. -/
def Decoder.rest (src : Source) (stop : Nat) (d : Decoder) : List Qoi.Pixel :=
  List.replicate d.run d.pixel ++ Qoi.pixels d.running (Qoi.chunks (src.cut stop d.pos))

theorem hash_eq (d : Decoder) : QOI_HASH d.r d.g d.b d.a = d.pixel.hash.val := by
  unfold QOI_HASH Qoi.Pixel.hash
  exact Nat.and_two_pow_sub_one_eq_mod _ 6

/-- The packed index after a store is the running array after the pixel is seen. -/
theorem running_storeIndex {d d' : Decoder} (h : d'.index = d.index) :
    d'.storeIndex.running = d.running.see d'.pixel := by
  unfold Qoi.Running.see
  show Qoi.Running.mk _ _ = _
  congr 1
  funext i
  rw [Function.update_apply]
  show unpack ((d'.index.set _ _ (QOI_HASH_lt _ _ _ _))[i.val]) = _
  rw [Vector.getElem_set, h]
  by_cases hi : i = d'.pixel.hash
  · rw [if_pos hi, if_pos (by rw [hash_eq, hi]), unpack_pack]
    rfl
  · rw [if_neg hi, if_neg (by rw [hash_eq]; exact fun h => hi (Fin.ext h.symm))]
    rfl

theorem nextPixel_spec {src : Source} {stop : Nat} (hstop : stop ≤ src.size) {d : Decoder}
    (hpos : d.pos ≤ stop) :
    match d.rest src stop with
    | [] => nextPixel src stop d = .error .null
    | p :: ps => ∃ d', nextPixel src stop d = .ok d' ∧ d'.pixel = p ∧ d'.pos ≤ stop ∧
        d'.rest src stop = ps := by
  unfold nextPixel
  by_cases hrun : d.run > 0
  · obtain ⟨k, hk⟩ : ∃ k, d.run = k + 1 := ⟨d.run - 1, by omega⟩
    have hrest : d.rest src stop = d.pixel :: Decoder.rest src stop { d with run := k } := by
      unfold Decoder.rest
      rw [hk]
      rfl
    rw [hrest, if_pos hrun, hk]
    exact ⟨_, rfl, rfl, hpos, rfl⟩
  have hrun : d.run = 0 := by omega
  rw [if_neg (by omega)]
  have hrest : d.rest src stop = Qoi.pixels d.running (Qoi.chunks (src.cut stop d.pos)) := by
    unfold Decoder.rest
    rw [hrun]
    rfl
  rw [hrest]
  by_cases hend : d.pos ≥ stop
  · rw [if_pos hend, Source.cut_of_ge hend, Qoi.chunks_of_none rfl]
    rfl
  rw [if_neg hend, Source.read_of_lt (by omega), Source.cut_of_lt (by omega)]
  have hop := decodeOp_spec hstop (d := { d with pos := d.pos + 1 }) (by show d.pos + 1 ≤ stop; omega)
    hrun (src.bytes d.pos)
  rcases hparse : Qoi.Chunk.parse (src.bytes d.pos :: src.cut stop (d.pos + 1)) with _ | ⟨c, bytes⟩
  · rw [hparse] at hop
    rw [Qoi.chunks_of_none hparse]
    show (decodeOp src stop _ _ >>= _) = _
    rw [show decodeOp src stop _ _ = _ from hop]
    rfl
  · rw [hparse] at hop
    obtain ⟨d', hd', hindex, hpixel, hlength, hpos', hcut⟩ := hop
    have hpixel : d'.pixel = c.pixel d.running := hpixel
    have hindex : d'.index = d.index := hindex
    rw [Qoi.chunks_of_some hparse, Qoi.pixels, hlength]
    refine ⟨d'.storeIndex, ?_, hpixel, hpos', ?_⟩
    · show (decodeOp src stop _ _ >>= _) = _
      rw [hd']
      rfl
    · unfold Decoder.rest
      rw [running_storeIndex hindex, ← hpixel]
      show _ ++ Qoi.pixels _ (Qoi.chunks (src.cut stop d'.pos)) = _
      rw [hcut]
      rfl

/-- The loop stores the pixels that are left, in their order, or gives up when they do not
suffice. -/
theorem decodeFrom_spec {src : Source} {stop : Nat} (hstop : stop ≤ src.size) (n : Nat) :
    ∀ (px : Nat) {d : Decoder} (out : Array UInt32), d.pos ≤ stop → out.size = px + n →
      (d.rest src stop).length < n ∧ decodeFrom src stop n px d out = .error .null ∨
      n ≤ (d.rest src stop).length ∧ ∃ out', decodeFrom src stop n px d out = .ok out' ∧
        out'.toList = out.toList.take px ++
          ((d.rest src stop).take n).map fun p => xrgb p.r p.g p.b := by
  induction n with
  | zero =>
    intro px d out hpos hsize
    refine Or.inr ⟨Nat.zero_le _, out, rfl, ?_⟩
    rw [List.take_of_length_le (by simp [hsize])]
    simp
  | succ n ih =>
    intro px d out hpos hsize
    have hnext := nextPixel_spec hstop hpos
    unfold decodeFrom
    rcases hrest : d.rest src stop with _ | ⟨p, ps⟩
    · rw [hrest] at hnext
      refine Or.inl ⟨Nat.succ_pos n, ?_⟩
      rw [show nextPixel src stop d = _ from hnext]
      rfl
    · rw [hrest] at hnext
      obtain ⟨d', hd', hpixel, hpos', hps⟩ := hnext
      have hpx : px < out.size := by omega
      have hset : (out.set px (xrgb d'.r d'.g d'.b)).toList.take (px + 1) =
          out.toList.take px ++ [xrgb p.r p.g p.b] := by
        rw [← hpixel, Array.toList_set, List.take_succ_eq_append_getElem (by simpa using hpx),
          List.take_set_of_le (Nat.le_refl px), List.getElem_set_self]
        rfl
      rw [hd']
      show _ ∧ (if h : px < out.size then _ else _) = _ ∨ _ ∧ ∃ _, (if h : px < out.size then _ else _) = _ ∧ _
      simp only [dif_pos hpx]
      rw [← hps]
      rcases ih (px + 1) (out.set px (xrgb d'.r d'.g d'.b)) hpos' (by simp; omega) with
        ⟨hlt, herr⟩ | ⟨hle, out', hok, hout⟩
      · exact Or.inl ⟨Nat.succ_lt_succ hlt, herr⟩
      · refine Or.inr ⟨Nat.succ_le_succ hle, out', hok, ?_⟩
        rw [hout, hset]
        simp

/-! ## The image -/

/-- What the source has to hold for its chunks to be looked at, with its width and height. -/
structure GoodHeader (src : Source) (w h : Nat) : Prop where
  size : QOI_HEADER_SIZE + QOI_PADDING_SIZE ≤ src.size
  magic : src.bytes.bytes 0 4 = ['q'.toUInt8, 'o'.toUInt8, 'i'.toUInt8, 'f'.toUInt8]
  width : beNat (src.bytes.bytes 4 4) = w
  height : beNat (src.bytes.bytes 8 4) = h
  width_range : 0 < w ∧ w ≤ QOI_MAX_DIM
  height_range : 0 < h ∧ h ≤ QOI_MAX_DIM
  channels : src.bytes 12 = 3 ∨ src.bytes 12 = 4
  area : w * h ≤ QOI_MAX_PIXELS

/-- The pixels that the format gives the chunks before the padding. -/
def Source.pixels (src : Source) : List Qoi.Pixel :=
  Qoi.decode (src.cut (src.size - QOI_PADDING_SIZE) QOI_HEADER_SIZE)

theorem qoiBe32_spec {src : Source} (p : Nat) (h : p + 4 ≤ src.size) :
    ∃ v, qoiBe32 src p = .ok v ∧ v.toNat = beNat (src.bytes.bytes p 4) := by
  unfold qoiBe32
  rw [Source.read_of_lt (by omega), Source.read_of_lt (by omega), Source.read_of_lt (by omega),
    Source.read_of_lt (by omega)]
  refine ⟨_, rfl, ?_⟩
  have h1 := (src.bytes (p + 1)).toNat_lt
  have h2 := (src.bytes (p + 2)).toNat_lt
  have h3 : (src.bytes (p + 3)).toNat < 2 ^ 8 := (src.bytes (p + 3)).toNat_lt
  rw [UInt32.toNat_or, UInt32.toNat_or, UInt32.toNat_or, toNat_shiftLeft _ (by decide),
    toNat_shiftLeft _ (by decide), toNat_shiftLeft _ (by decide), UInt8.toNat_toUInt32,
    Nat.or_assoc, Nat.or_assoc]
  show (src.bytes p).toNat <<< 24 ||| ((src.bytes (p + 1)).toNat <<< 16 |||
    ((src.bytes (p + 2)).toNat <<< 8 ||| (src.bytes (p + 3)).toNat)) =
    beNat [src.bytes p, src.bytes (p + 1), src.bytes (p + 2), src.bytes (p + 3)]
  have h23 : (src.bytes (p + 2)).toNat * 2 ^ 8 + (src.bytes (p + 3)).toNat < 2 ^ (8 + 8) :=
    prepend_lt h2 h3
  have h123 : (src.bytes (p + 1)).toNat * 2 ^ 16 +
      ((src.bytes (p + 2)).toNat * 2 ^ 8 + (src.bytes (p + 3)).toNat) < 2 ^ (8 + 16) :=
    prepend_lt h1 h23
  rw [shiftLeft_or h3, shiftLeft_or h23, shiftLeft_or h123]
  simp [beNat]

theorem qoiHeader_spec (env : Env) (src : Source) :
    (∃ w h, GoodHeader src w h ∧ qoiHeader env src = .ok (w, h)) ∨
      (∀ w h, ¬ GoodHeader src w h) ∧ qoiHeader env src = .error .null := by
  unfold qoiHeader
  by_cases hsize : src.size < QOI_HEADER_SIZE + QOI_PADDING_SIZE
  · rw [if_pos hsize]
    exact Or.inr ⟨fun w h hgood => absurd hgood.size (Nat.not_le.mpr hsize), rfl⟩
  rw [if_neg hsize]
  have hsize' : 22 ≤ src.size := Nat.not_lt.mp hsize
  obtain ⟨w, hw, hwidth⟩ := @qoiBe32_spec src 4 (by omega)
  obtain ⟨h, hh, hheight⟩ := @qoiBe32_spec src 8 (by omega)
  rw [Source.read_of_lt (by omega), Source.read_of_lt (by omega), Source.read_of_lt (by omega),
    Source.read_of_lt (by omega), Source.read_of_lt (by omega), hw, hh]
  simp only [bind, Except.bind]
  by_cases hmagic : src.bytes 0 ≠ 'q'.toUInt8 ∨ src.bytes 1 ≠ 'o'.toUInt8 ∨
      src.bytes 2 ≠ 'i'.toUInt8 ∨ src.bytes 3 ≠ 'f'.toUInt8
  · rw [if_pos hmagic]
    refine Or.inr ⟨fun w h hgood => ?_, rfl⟩
    have := hgood.magic
    simp [ByteMemory.bytes, List.range_succ] at this
    simp [this] at hmagic
  rw [if_neg hmagic]
  by_cases hrange : w.toNat = 0 ∨ h.toNat = 0 ∨ w.toNat > QOI_MAX_DIM ∨ h.toNat > QOI_MAX_DIM
  · rw [if_pos hrange]
    refine Or.inr ⟨fun w h hgood => ?_, rfl⟩
    have hw := hgood.width_range
    have hh := hgood.height_range
    rw [← hgood.width, ← hwidth] at hw
    rw [← hgood.height, ← hheight] at hh
    omega
  rw [if_neg hrange]
  by_cases hchannels : src.bytes 12 ≠ 3 ∧ src.bytes 12 ≠ 4
  · rw [if_pos hchannels]
    refine Or.inr ⟨fun w h hgood => ?_, rfl⟩
    rcases hgood.channels with h3 | h4
    · exact hchannels.1 h3
    · exact hchannels.2 h4
  rw [if_neg hchannels]
  have hgood : w.toNat * h.toNat ≤ QOI_MAX_PIXELS → GoodHeader src w.toNat h.toNat := fun harea => {
    size := Nat.not_lt.mp hsize
    magic := by
      simp only [not_or, not_not] at hmagic
      obtain ⟨h0, h1, h2, h3⟩ := hmagic
      rw [← h0, ← h1, ← h2, ← h3]
      rfl
    width := hwidth.symm
    height := hheight.symm
    width_range := by omega
    height_range := by omega
    channels := by
      by_cases h3 : src.bytes 12 = 3
      · exact Or.inl h3
      · exact Or.inr (not_not.mp fun h4 => hchannels ⟨h3, h4⟩)
    area := harea }
  have harea_of : ∀ w' h', GoodHeader src w' h' → w.toNat * h.toNat ≤ QOI_MAX_PIXELS := by
    intro w' h' hgood'
    rw [hwidth, hheight, hgood'.width, hgood'.height]
    exact hgood'.area
  have hbits := Nat.pow_le_pow_right (n := 2) (by decide) env.sizeBits_ge
  unfold Env.checked
  by_cases harea : w.toNat * h.toNat ≤ QOI_MAX_PIXELS
  · refine Or.inl ⟨_, _, hgood harea, ?_⟩
    have hlt : w.toNat * h.toNat < 2 ^ env.sizeBits := by
      unfold QOI_MAX_PIXELS at harea
      omega
    rw [if_pos hlt]
    exact if_neg (Nat.not_lt.mpr harea)
  · refine Or.inr ⟨fun w' h' hgood' => harea (harea_of w' h' hgood'), ?_⟩
    split
    · next v hv => 
      split at hv
      · cases hv
      · cases hv
        rfl
    · next v hv =>
      split at hv
      · cases hv
        exact if_pos (Nat.not_le.mp harea)
      · cases hv

theorem qoiAllocXrgb_spec (env : Env) {pixels : Nat} (h : pixels ≤ QOI_MAX_PIXELS) :
    qoiAllocXrgb env pixels = if env.canAlloc (pixels * 4 + 16) then
      .ok (Array.replicate pixels 0) else .error .outOfMemory := by
  have hbits := Nat.pow_le_pow_right (n := 2) (by decide) env.sizeBits_ge
  have hlt : pixels * 4 + 16 < 2 ^ env.sizeBits := by
    unfold QOI_MAX_PIXELS at h
    omega
  unfold qoiAllocXrgb Env.checked
  rw [if_pos (by omega)]
  show (if pixels * 4 + 16 < 2 ^ env.sizeBits then Except.ok (pixels * 4 + 16)
    else Except.error Stop.null) >>= _ = _
  rw [if_pos hlt]
  rfl

/-- The pixel at every position of a decoded image is the format's, without its alpha. -/
def Shows (out : Decoded) (pixels : List Qoi.Pixel) : Prop :=
  out.pixels.size = out.w * out.h ∧ ∀ i, i < out.w * out.h → ∃ p v, pixels[i]? = some p ∧
    out.pixels[i]? = some v ∧ v.toNat = p.r.toNat * 2 ^ 16 + p.g.toNat * 2 ^ 8 + p.b.toNat

/-- The outcome of a decoding, for each of the ways it can end. -/
def Ends (env : Env) (src : Option Source) : Except Stop Decoded → Prop
  | .ok out => ∃ s, src = some s ∧ GoodHeader s out.w out.h ∧ Shows out s.pixels
  | .error .null => ∀ s w h, src = some s → GoodHeader s w h → s.pixels.length < w * h
  | .error .outOfMemory => ∃ s w h, src = some s ∧ GoodHeader s w h ∧
      env.canAlloc (w * h * 4 + 16) = false
  | .error (.readOutside _) => False
  | .error (.writeOutside _) => False

theorem GoodHeader.unique {src : Source} {w h w' h' : Nat} (hgood : GoodHeader src w h)
    (hgood' : GoodHeader src w' h') : w = w' ∧ h = h' :=
  ⟨hgood.width.symm.trans hgood'.width, hgood.height.symm.trans hgood'.height⟩

theorem shows_of_toList {out : Array UInt32} {w h : Nat} {pixels : List Qoi.Pixel}
    (hle : w * h ≤ pixels.length)
    (hout : out.toList = (pixels.take (w * h)).map fun p => xrgb p.r p.g p.b) :
    Shows ⟨w, h, out⟩ pixels := by
  constructor
  · show out.size = w * h
    rw [← Array.length_toList, hout, List.length_map, List.length_take, Nat.min_eq_left hle]
  · intro i hi
    have hi : i < w * h := hi
    refine ⟨pixels[i], xrgb pixels[i].r pixels[i].g pixels[i].b, List.getElem?_eq_getElem (by omega),
      ?_, xrgb_toNat _ _ _⟩
    show out[i]? = _
    rw [← Array.getElem?_toList, hout, List.getElem?_map, List.getElem?_take_of_lt hi,
      List.getElem?_eq_getElem (by omega)]
    rfl

theorem start_rest (src : Source) :
    Decoder.start.rest src (src.size - QOI_PADDING_SIZE) = src.pixels := by
  have hzero : unpack 0 = ⟨0, 0, 0, 0⟩ := by decide
  have hrunning : Decoder.start.running = Qoi.Running.start := by
    unfold Decoder.running
    show Qoi.Running.mk _ _ = _
    congr 1
    funext i
    show unpack ((Vector.replicate 64 0)[i.val]) = _
    rw [Vector.getElem_replicate, hzero]
  unfold Decoder.rest Source.pixels Qoi.decode
  rw [hrunning]
  rfl

theorem qoiDecode_ends (env : Env) (src : Option Source) : Ends env src (qoiDecode env src) := by
  rcases src with _ | src
  · intro s w h hs
    cases hs
  unfold qoiDecode
  dsimp only
  rcases qoiHeader_spec env src with ⟨w, h, hgood, hheader⟩ | ⟨hbad, hheader⟩
  · rw [hheader]
    show Ends env (some src) (qoiAllocXrgb env (w * h) >>= _)
    rw [qoiAllocXrgb_spec env hgood.area]
    by_cases hroom : env.canAlloc (w * h * 4 + 16) = true
    · rw [if_pos hroom]
      have hpos : QOI_HEADER_SIZE ≤ src.size - QOI_PADDING_SIZE := by
        have := hgood.size
        omega
      have hloop := @decodeFrom_spec src _ (Nat.sub_le src.size QOI_PADDING_SIZE) (w * h) 0 Decoder.start
        (Array.replicate (w * h) 0) hpos (by simp)
      rw [start_rest] at hloop
      show Ends env (some src) (decodeFrom src _ _ _ _ _ >>= _)
      rcases hloop with ⟨hlt, herr⟩ | ⟨hle, out, hok, hout⟩
      · rw [herr]
        intro s w' h' hs hgood'
        cases hs
        obtain ⟨rfl, rfl⟩ := hgood.unique hgood'
        exact hlt
      · rw [hok]
        have hlist : out.toList = (src.pixels.take (w * h)).map fun p => xrgb p.r p.g p.b := by
          rw [hout, List.take_zero, List.nil_append]
        exact ⟨src, rfl, hgood, shows_of_toList hle hlist⟩
    · rw [if_neg hroom]
      exact ⟨src, w, h, rfl, hgood, Bool.eq_false_iff.mpr hroom⟩
  · rw [hheader]
    intro s w h hs hgood
    cases hs
    exact absurd hgood (hbad w h)

/-- Decoding stays inside the source and the buffer, fails exactly for a bad header or too few chunks,
and otherwise shows the format's pixels.  Only the allocation can panic instead. -/
theorem qoiDecode_decodes (env : Env) (src : Option Source) :
    (∀ i, qoiDecode env src ≠ .error (.readOutside i) ∧ qoiDecode env src ≠ .error (.writeOutside i)) ∧
    (qoiDecode env src = .error .outOfMemory ∧ (∃ s w h, src = some s ∧ GoodHeader s w h ∧
        env.canAlloc (w * h * 4 + 16) = false) ∨
      (qoiDecode env src = .error .null ↔
        ∀ s w h, src = some s → GoodHeader s w h → s.pixels.length < w * h)) ∧
    ∀ out, qoiDecode env src = .ok out →
      ∃ s, src = some s ∧ GoodHeader s out.w out.h ∧ Shows out s.pixels := by
  have hends := qoiDecode_ends env src
  rcases hresult : qoiDecode env src with (_ | _ | i | i) | out
  · rw [hresult] at hends
    refine ⟨by simp, Or.inr ⟨fun _ => hends, fun _ => rfl⟩, by simp⟩
  · rw [hresult] at hends
    exact ⟨by simp, Or.inl ⟨rfl, hends⟩, by simp⟩
  · rw [hresult] at hends
    exact hends.elim
  · rw [hresult] at hends
    exact hends.elim
  · rw [hresult] at hends
    refine ⟨by simp, Or.inr ⟨by simp, fun hshort => ?_⟩, ?_⟩
    · obtain ⟨s, hs, hgood, hshows⟩ := hends
      have hlt := hshort s out.w out.h hs hgood
      obtain ⟨p, -, hp, -⟩ := hshows.2 _ hlt
      rw [List.getElem?_eq_none (Nat.le_refl _)] at hp
      cases hp
    · intro out' hout'
      cases hout'
      exact hends

end Limine.Image
