import MaskForge.Ir.Hash
import MaskForge.Ir.Layout
import MaskForge.Ir.Routing
/-!
# Wire — the framed, checksummed envelope of an arena

An envelope is a header, a payload and a checksum over both.  Decoding checks the frame, decodes the payload, checks the
caps and validates the arena.  What the envelope is accepted with, it is written with again; and a frame whose header or
length was changed is refused.
-/
namespace MaskForge
namespace Ir

open Codec

def magic : List Byte := ascii "MFIR"
def formatVersion : UInt16 := 1
def headerLen : Nat := 12
def checksumLen : Nat := 32
def minEnvelope : Nat := headerLen + checksumLen
def maxEncodedBytes : Nat := 64 * 1024 * 1024

inductive DecodeError where
  | limitExceeded
  | other
  deriving DecidableEq

/-- The serializer's two entry points, as configured here; decoding also says how many bytes it read. -/
structure Bincode where
  encode : SchemaIRWire → List Byte
  decode : List Byte → Except DecodeError (SchemaIRWire × Nat)

/-- `limit`; what was exceeded is attached to the error beside its message. -/
def capped (_what : String) : CompileError := ⟨.internalLimitExceeded, .l2, "decoded arena exceeds a cap"⟩

def checkCaps (w : SchemaIRWire) : Except CompileError Unit := do
  check (w.irVersion == irVersion) (malformed "decoded ir_version mismatch")
  check (decide (w.nodes.length ≤ maxNodes)) (capped "node count")
  check (decide (w.strings.length ≤ maxStringsBytes)) (capped "strings size")
  check (decide (w.literals.length ≤ maxLiterals)) (capped "literal count")
  check (decide (w.props.length ≤ maxProps)) (capped "prop count")
  check (decide (w.dependentRequiredPairs.length ≤ maxDependentRequiredPairs))
    (malformed "dependentRequired pair count exceeds cap")
  check (decide (w.requiredBits.length ≤ maxRequiredWords)) (capped "required words")
  check (decide (w.nodeRefs.length ≤ maxNodeRefs)) (capped "node ref count")
  check (decide (w.defTargets.length ≤ maxNodes)) (capped "def target count")
  check (decide (w.resources.length ≤ maxResources)) (capped "resource count")
  check (decide (w.anchors.length ≤ maxAnchors)) (capped "anchor count")
  check (decide (w.nodeResources.length ≤ maxNodes)) (capped "node resource count")
  check (decide (w.diagnostics.length ≤ maxDiagnosticCount)) (capped "diagnostic count")
  check (decide (literalStrBytes w.literals ≤ maxLiteralStrBytes)) (capped "literal string bytes")

/-- The accumulated difference of two byte strings of one length. -/
def constantTimeEq (a b : List Byte) : Bool :=
  a.length == b.length && (a.zip b).foldl (fun acc p => acc ||| (p.1 ^^^ p.2)) 0 == 0

section
variable (bincode : Bincode) (blake3 : List Byte → Digest) (env : Externals)

def header (version : UInt16) (payloadLen : Nat) : List Byte :=
  magic ++ u16.enc formatVersion ++ u16.enc version ++ u32.enc (UInt32.ofNat payloadLen)

/-- `none` where the payload's length does not fit its field: the source panics there. -/
def frame (version : UInt16) (payload : List Byte) : Option (List Byte) :=
  if payload.length < u32Size then
    let out := header version payload.length ++ payload
    some (out ++ (blake3 out).toList)
  else none

/-- `SchemaIR::to_wire`. -/
def toWire (ir : SchemaIR env) : Option (List Byte) := frame blake3 ir.wire.irVersion (bincode.encode ir.wire)

def mapDecodeErr : DecodeError → CompileError
  | .limitExceeded => capped "decode allocation"
  | .other => malformed "payload failed to decode"

/-- The frame around a payload, checked. -/
def unframe (bytes : List Byte) : Except CompileError (List Byte) := do
  check (decide (minEnvelope ≤ bytes.length)) (malformed "envelope shorter than the minimum header")
  check (bytes.take 4 == magic) (malformed "bad envelope magic")
  check (leVal ((bytes.drop 4).take 2) == formatVersion.toNat) (malformed "unsupported envelope format version")
  check (leVal ((bytes.drop 6).take 2) == irVersion.toNat) (malformed "ir_version mismatch")
  let payloadLen := leVal ((bytes.drop 8).take 4)
  check (decide (payloadLen ≤ maxEncodedBytes)) (malformed "declared payload exceeds the size cap")
  check (headerLen + payloadLen + checksumLen == bytes.length)
    (malformed "envelope length does not match the declared payload")
  let payload := (bytes.drop headerLen).take payloadLen
  let checksum := bytes.drop (headerLen + payloadLen)
  check (constantTimeEq checksum (blake3 (bytes.take headerLen ++ payload)).toList)
    ⟨.artifactMismatch, .l2, "envelope checksum mismatch"⟩
  .ok payload

/-- `SchemaIR::from_wire`. -/
def fromWire (bytes : List Byte) : Except CompileError (SchemaIR env) := do
  let payload ← unframe blake3 bytes
  let (wire, read) ← (bincode.decode payload).mapError mapDecodeErr
  check (read == payload.length) (malformed "payload has trailing bytes after decode")
  checkCaps wire
  assemble env wire

end

/-! ### Caps -/

/-- The caps of an arena. -/
structure Capped (w : SchemaIRWire) : Prop where
  nodes : w.nodes.length ≤ maxNodes
  strings : w.strings.length ≤ maxStringsBytes
  literals : w.literals.length ≤ maxLiterals
  props : w.props.length ≤ maxProps
  pairs : w.dependentRequiredPairs.length ≤ maxDependentRequiredPairs
  bits : w.requiredBits.length ≤ maxRequiredWords
  refs : w.nodeRefs.length ≤ maxNodeRefs
  defs : w.defTargets.length ≤ maxNodes
  resources : w.resources.length ≤ maxResources
  anchors : w.anchors.length ≤ maxAnchors
  owners : w.nodeResources.length ≤ maxNodes
  diagnostics : w.diagnostics.length ≤ maxDiagnosticCount
  content : literalStrBytes w.literals ≤ maxLiteralStrBytes

section
variable {w : SchemaIRWire}

theorem checkCaps_ok : checkCaps w = .ok () ↔ w.irVersion = irVersion ∧ Capped w := by
  simp only [checkCaps, bind_eq_ok, check_ok, beq_iff_eq, decide_eq_true_eq]
  constructor
  · rintro ⟨-, hv, -, h1, -, h2, -, h3, -, h4, -, h5, -, h6, -, h7, -, h8, -, h9, -, h10, -, h11, -, h12, h13⟩
    exact ⟨hv, h1, h2, h3, h4, h5, h6, h7, h8, h9, h10, h11, h12, h13⟩
  · rintro ⟨hv, h1, h2, h3, h4, h5, h6, h7, h8, h9, h10, h11, h12, h13⟩
    exact ⟨(), hv, (), h1, (), h2, (), h3, (), h4, (), h5, (), h6, (), h7, (), h8, (), h9, (), h10, (), h11,
      (), h12, h13⟩

theorem literalStrBytes_eq (lits : List ScalarLit) : literalStrBytes lits = (lits.map ScalarLit.contentBytes).sum := by
  rw [literalStrBytes]
  congr 1

theorem contentBytes_le {lits : List ScalarLit} {l : ScalarLit} (h : l ∈ lits) :
    l.contentBytes ≤ literalStrBytes lits := by
  rw [literalStrBytes_eq]
  exact List.single_le_sum (fun _ _ => Nat.zero_le _) _ (List.mem_map.2 ⟨l, h, rfl⟩)

/-- A capped arena has room in its layout. -/
theorem Capped.fits (h : Capped w) : wireCodec.Fits w := by
  have hlt : ∀ {n m : Nat}, n ≤ m → m < 2 ^ 64 → n < 2 ^ 64 := fun h1 h2 => Nat.lt_of_le_of_lt h1 h2
  refine ⟨total_u16 _, total_u32 _, total_node.vec (hlt h.nodes (by decide)), total_u8.vec (hlt h.strings (by decide)),
    ⟨hlt h.literals (by decide), fun l hl => ?_⟩, total_prop.vec (hlt h.props (by decide)),
    total_pair.vec (hlt h.pairs (by decide)), total_u64.vec (hlt h.bits (by decide)),
    total_u32.vec (hlt h.refs (by decide)), total_u32.vec (hlt h.defs (by decide)), total_slice.opt _,
    total_resource.vec (hlt h.resources (by decide)), total_anchor.vec (hlt h.anchors (by decide)),
    total_u32.vec (hlt h.owners (by decide)), total_options _, total_diagnostic.vec (hlt h.diagnostics (by decide))⟩
  have hc := (contentBytes_le hl).trans h.content
  cases l with
  | str s => exact fits_str (hlt hc (by decide))
  | json s => exact fits_str (hlt hc (by decide))
  | null | bool | int => trivial

theorem length_literals (h : Capped w) :
    ((vec scalarLitCodec).enc w.literals).length ≤ 8 + 12 * maxLiterals + maxLiteralStrBytes := by
  have hsum : ∀ lits : List ScalarLit, (lits.map fun l => (scalarLitCodec.enc l).length).sum ≤
      12 * lits.length + literalStrBytes lits := by
    intro lits
    rw [literalStrBytes_eq]
    induction lits with
    | nil => simp
    | cons l lits ih =>
      have := length_scalarLit l
      simp only [List.map_cons, List.sum_cons, List.length_cons]
      omega
  have h1 := hsum w.literals
  have h2 := h.literals
  have h3 := h.content
  rw [length_vec]
  omega

/-- The bytes of an arena, field by field. -/
theorem length_wireCodec (w : SchemaIRWire) : (wireCodec.enc w).length =
    (u16.enc w.irVersion).length + ((u32.enc w.root).length + (((vec nodeCodec).enc w.nodes).length +
      (((vec u8).enc w.strings).length + (((vec scalarLitCodec).enc w.literals).length +
        (((vec propLayout).enc w.props).length + (((vec pairLayout).enc w.dependentRequiredPairs).length +
          (((vec u64).enc w.requiredBits).length + (((vec u32).enc w.nodeRefs).length +
            (((vec u32).enc w.defTargets).length + (((opt sliceCodec).enc w.retrievalUri).length +
              (((vec resourceLayout).enc w.resources).length + (((vec anchorLayout).enc w.anchors).length +
                (((vec u32).enc w.nodeResources).length + ((optionsLayout.enc w.options).length +
                  ((vec diagnosticLayout).enc w.diagnostics).length)))))))))))))) := by
  simp only [← List.length_append]
  rfl

/-- **A capped arena stays below the envelope's limit.** -/
theorem Capped.length_le (h : Capped w) : (wireCodec.enc w).length ≤ maxEncodedBytes := by
  rw [length_wireCodec]
  refine (Nat.add_le_add (within_u16 _) (Nat.add_le_add (within_u32 _) (Nat.add_le_add (within_node.vec h.nodes)
    (Nat.add_le_add (within_u8.vec h.strings) (Nat.add_le_add (length_literals h) (Nat.add_le_add (within_prop.vec
    h.props) (Nat.add_le_add (within_pair.vec h.pairs) (Nat.add_le_add (within_u64.vec h.bits) (Nat.add_le_add
    (within_u32.vec h.refs) (Nat.add_le_add (within_u32.vec h.defs) (Nat.add_le_add (within_slice.opt _)
    (Nat.add_le_add (within_resource.vec h.resources) (Nat.add_le_add (within_anchor.vec h.anchors)
    (Nat.add_le_add (within_u32.vec h.owners) (Nat.add_le_add (within_options _) (within_diagnostic.vec
    h.diagnostics)))))))))))))))).trans ?_
  decide +kernel

end

/-! ### The frame -/

theorem foldl_or_eq_zero : ∀ (l : List (Byte × Byte)) (acc : Byte),
    l.foldl (fun acc p => acc ||| (p.1 ^^^ p.2)) acc = 0 ↔ acc = 0 ∧ ∀ p ∈ l, p.1 = p.2
  | [], acc => by simp
  | p :: l, acc => by
    rw [List.foldl_cons, foldl_or_eq_zero l, UInt8.or_eq_zero_iff, UInt8.xor_eq_zero_iff, List.forall_mem_cons]
    exact and_assoc

theorem constantTimeEq_iff {a b : List Byte} : constantTimeEq a b = true ↔ a = b := by
  simp only [constantTimeEq, Bool.and_eq_true, beq_iff_eq, foldl_or_eq_zero, true_and]
  constructor
  · rintro ⟨hlen, hall⟩
    refine List.ext_getElem hlen fun i h1 h2 => ?_
    have hi : i < (a.zip b).length := by simp [hlen, h2]
    have := hall _ (List.getElem_mem hi)
    rwa [List.getElem_zip] at this
  · rintro rfl
    refine ⟨rfl, fun p hp => ?_⟩
    obtain ⟨i, hi, rfl⟩ := List.mem_iff_getElem.1 hp
    rw [List.getElem_zip]

theorem length_header (version : UInt16) (n : Nat) : (header version n).length = headerLen := by
  simp only [header, List.length_append]
  have h1 : (u16.enc formatVersion).length = 2 := length_leBytes _ _
  have h2 : (u16.enc version).length = 2 := length_leBytes _ _
  have h3 : (u32.enc (UInt32.ofNat n)).length = 4 := length_leBytes _ _
  rw [h1, h2, h3]
  rfl

/-- Bytes of a known value, by their count. -/
theorem eq_leBytes {bs : List Byte} {n v : Nat} (hlen : bs.length = n) (h : leVal bs = v) : bs = leBytes n v := by
  rw [← hlen, ← h, leBytes_leVal]

section
variable {bincode : Bincode} {blake3 : List Byte → Digest} {env : Externals}

/-- **What an accepted frame is**: the header of its payload, the payload, and their checksum. -/
theorem unframe_ok {bytes payload : List Byte} (h : unframe blake3 bytes = .ok payload) :
    payload.length ≤ maxEncodedBytes ∧
      bytes = header irVersion payload.length ++ payload ++
      (blake3 (header irVersion payload.length ++ payload)).toList := by
  simp only [unframe, bind_eq_ok, check_ok, decide_eq_true_eq, beq_iff_eq, constantTimeEq_iff] at h
  obtain ⟨-, hmin, -, hmagic, -, hformat, -, hversion, -, hcap, -, htotal, -, hsum, he⟩ := h
  simp only [Except.ok.injEq] at he
  have hlen : payload.length = leVal ((bytes.drop 8).take 4) := by
    rw [← he, List.length_take, List.length_drop]
    simp only [headerLen, checksumLen] at htotal ⊢
    omega
  have hhead : bytes.take headerLen = header irVersion payload.length := by
    have hlong : headerLen ≤ bytes.length := by
      simp only [minEnvelope, checksumLen] at hmin
      omega
    have h4 : ((bytes.drop 4).take 2).length = 2 := by
      rw [List.length_take, List.length_drop]
      simp only [headerLen] at hlong
      omega
    have h6 : ((bytes.drop 6).take 2).length = 2 := by
      rw [List.length_take, List.length_drop]
      simp only [headerLen] at hlong
      omega
    have h8 : ((bytes.drop 8).take 4).length = 4 := by
      rw [List.length_take, List.length_drop]
      simp only [headerLen] at hlong
      omega
    have hsplit : bytes.take headerLen =
        bytes.take 4 ++ (bytes.drop 4).take 2 ++ (bytes.drop 6).take 2 ++ (bytes.drop 8).take 4 := by
      rw [show headerLen = 4 + 2 + 2 + 4 from rfl, List.take_add, List.take_add, List.take_add]
    have hlt : payload.length < 2 ^ 32 := by
      rw [hlen]
      have := leVal_lt ((bytes.drop 8).take 4)
      rw [h8] at this
      exact this
    have h8' : (bytes.drop 8).take 4 = u32.enc (UInt32.ofNat payload.length) := by
      have : (UInt32.ofNat payload.length).toNat = payload.length := UInt32.toNat_ofNat_of_lt' hlt
      show _ = leBytes 4 (UInt32.ofNat payload.length).toNat
      rw [this, hlen]
      exact eq_leBytes h8 rfl
    have h4' : (bytes.drop 4).take 2 = u16.enc formatVersion := eq_leBytes h4 hformat
    have h6' : (bytes.drop 6).take 2 = u16.enc irVersion := eq_leBytes h6 hversion
    rw [hsplit, hmagic, h4', h6', h8']
    rfl
  refine ⟨hlen ▸ hcap, ?_⟩
  rw [he, ← hlen, hhead] at hsum
  rw [← hlen] at he
  calc bytes = bytes.take headerLen ++ ((bytes.drop headerLen).take payload.length ++
        (bytes.drop headerLen).drop payload.length) := by rw [List.take_append_drop, List.take_append_drop]
    _ = header irVersion payload.length ++ (payload ++ bytes.drop (headerLen + payload.length)) := by
      rw [hhead, he, List.drop_drop]
    _ = _ := by rw [hsum, List.append_assoc]

theorem unframe_frame {payload : List Byte} (h : payload.length ≤ maxEncodedBytes) :
    unframe blake3 (header irVersion payload.length ++ payload ++
      (blake3 (header irVersion payload.length ++ payload)).toList) = .ok payload := by
  have hhead := length_header irVersion payload.length
  have hlt : payload.length < 2 ^ 32 := Nat.lt_of_le_of_lt h (by decide +kernel)
  have hval : leVal (u32.enc (UInt32.ofNat payload.length)) = payload.length := by
    show leVal (leBytes 4 (UInt32.ofNat payload.length).toNat) = _
    rw [UInt32.toNat_ofNat_of_lt' hlt, leVal_leBytes _ _ hlt]
  have hfour : ∀ rest, (header irVersion payload.length ++ rest).take 4 = magic := fun rest => rfl
  have hformat : ∀ rest, leVal (((header irVersion payload.length ++ rest).drop 4).take 2) = formatVersion.toNat :=
    fun rest => rfl
  have hversion : ∀ rest, leVal (((header irVersion payload.length ++ rest).drop 6).take 2) = irVersion.toNat :=
    fun rest => rfl
  have hplen : ∀ rest, leVal (((header irVersion payload.length ++ rest).drop 8).take 4) = payload.length :=
    fun rest => hval
  have htake : ∀ rest, (header irVersion payload.length ++ rest).take headerLen = header irVersion payload.length :=
    fun rest => List.take_left' hhead
  have hdrop : ∀ rest, (header irVersion payload.length ++ rest).drop headerLen = rest :=
    fun rest => List.drop_left' hhead
  rw [List.append_assoc]
  simp only [unframe, bind_eq_ok, check_ok, decide_eq_true_eq, beq_iff_eq, constantTimeEq_iff, hfour, hformat, hversion,
    hplen, htake, hdrop, ← List.drop_drop, List.take_left, List.drop_left, List.length_append, hhead,
    Vector.length_toList]
  refine ⟨(), ?_, (), trivial, (), trivial, (), trivial, (), h, (), ?_, (), trivial, trivial⟩
  · simp only [minEnvelope, checksumLen]
    omega
  · simp only [checksumLen]
    omega

/-- The bytes an envelope carries between its header and its checksum. -/
def payloadOf (bytes : List Byte) : List Byte := (bytes.drop headerLen).take (bytes.length - minEnvelope)

theorem payloadOf_unframe {bytes payload : List Byte} (h : unframe blake3 bytes = .ok payload) :
    payloadOf bytes = payload := by
  obtain ⟨-, rfl⟩ := unframe_ok h
  have hlen : (header irVersion payload.length ++ payload ++
      (blake3 (header irVersion payload.length ++ payload)).toList).length - minEnvelope = payload.length := by
    simp only [List.length_append, length_header, Vector.length_toList, minEnvelope, headerLen, checksumLen]
    omega
  rw [payloadOf, hlen, List.append_assoc, List.drop_left' (length_header _ _), List.take_left]

/-- What decoding an envelope established on its way. -/
theorem fromWire_ok {bytes : List Byte} {ir : SchemaIR env} (h : fromWire bincode blake3 env bytes = .ok ir) :
    unframe blake3 bytes = .ok (payloadOf bytes) ∧
      bincode.decode (payloadOf bytes) = .ok (ir.wire, (payloadOf bytes).length) ∧ Capped ir.wire := by
  simp only [fromWire, bind_eq_ok, check_ok, beq_iff_eq] at h
  obtain ⟨payload, hframe, ⟨wire, read⟩, hdec, -, hread, ⟨⟩, hcaps, hir⟩ := h
  obtain rfl := payloadOf_unframe hframe
  obtain rfl := assemble_ok env wire hir
  obtain rfl : read = _ := hread
  refine ⟨hframe, ?_, (checkCaps_ok.1 hcaps).2⟩
  cases hd : bincode.decode (payloadOf bytes) with
  | error e =>
    rw [hd] at hdec
    cases hdec
  | ok r =>
    rw [hd] at hdec
    cases hdec
    rfl

end

/-! ### The serializer -/

/-- The fixed-int little-endian layout, read with the number of bytes it took. -/
def fixedInt : Bincode where
  encode := wireCodec.enc
  decode s :=
    match wireCodec.dec s with
    | some (w, rest) => .ok (w, s.length - rest.length)
    | none => .error .other

/-- What is relied on of the serializer: it writes the fixed-int layout, and on arenas within the caps and the byte
limit its two directions are inverse. -/
structure Bincode.FixedInt (bincode : Bincode) : Prop where
  layout : ∀ w, bincode.encode w = wireCodec.enc w
  decode_encode : ∀ w, Capped w → (bincode.encode w).length ≤ maxEncodedBytes →
    bincode.decode (bincode.encode w) = .ok (w, (bincode.encode w).length)
  encode_decode : ∀ s w read, bincode.decode s = .ok (w, read) → read ≤ s.length ∧ s.take read = bincode.encode w

theorem fixedInt_fixedInt : fixedInt.FixedInt where
  layout _ := rfl
  decode_encode w hw _ := by
    have hd := wireCodec.dec_enc w [] hw.fits
    rw [List.append_nil] at hd
    simp only [fixedInt, hd, List.length_nil, Nat.sub_zero]
  encode_decode s w read h := by
    simp only [fixedInt] at h
    split at h
    · rename_i w' rest hd
      simp only [Except.ok.injEq, Prod.mk.injEq] at h
      obtain ⟨rfl, rfl⟩ := h
      obtain ⟨-, hs⟩ := wireCodec.enc_dec _ _ _ hd
      refine ⟨Nat.sub_le _ _, ?_⟩
      rw [hs, List.length_append, Nat.add_sub_cancel]
      exact List.take_left
    · cases h

section
variable {bincode : Bincode} {blake3 : List Byte → Digest} {env : Externals}

/-- **A capped arena comes back from its own envelope.** -/
theorem fromWire_toWire (blake3 : List Byte → Digest) (hb : bincode.FixedInt) (ir : SchemaIR env)
    (hc : Capped ir.wire) :
    ∃ bytes, toWire bincode blake3 env ir = some bytes ∧ fromWire bincode blake3 env bytes = .ok ir := by
  have hlen : (bincode.encode ir.wire).length ≤ maxEncodedBytes := by
    rw [hb.layout]
    exact hc.length_le
  have hver := (validate_ok ir.valid).version
  refine ⟨_, if_pos (Nat.lt_of_le_of_lt hlen (by decide +kernel)), ?_⟩
  simp only [fromWire, hver, unframe_frame hlen, bind_eq_ok, check_ok, beq_iff_eq]
  refine ⟨_, rfl, (ir.wire, (bincode.encode ir.wire).length), ?_, (), rfl, (), checkCaps_ok.2 ⟨hver, hc⟩,
    assemble_wire env ir⟩
  rw [hb.decode_encode _ hc hlen]
  rfl

/-- **An accepted envelope is the one its arena is written to.** -/
theorem toWire_fromWire (hb : bincode.FixedInt) {bytes : List Byte} {ir : SchemaIR env}
    (h : fromWire bincode blake3 env bytes = .ok ir) : toWire bincode blake3 env ir = some bytes := by
  obtain ⟨hframe, hdec, hcap⟩ := fromWire_ok h
  obtain ⟨hle, hbytes⟩ := unframe_ok hframe
  have hpay : bincode.encode ir.wire = payloadOf bytes := by
    obtain ⟨-, ht⟩ := hb.encode_decode _ _ _ hdec
    rw [← ht, List.take_length]
  have hlt : (payloadOf bytes).length < u32Size := Nat.lt_of_le_of_lt hle (by decide +kernel)
  rw [toWire, hpay, (validate_ok ir.valid).version, frame, if_pos hlt]
  exact congrArg some hbytes.symm

/-! ### What is accepted -/

/-- The arena an envelope carries has no `contains` whose schema comes at or after its node. -/
def CarriesContainsBack (bincode : Bincode) (bytes : List Byte) : Prop :=
  ∀ wire read, bincode.decode (payloadOf bytes) = .ok (wire, read) → ContainsBack wire

/-- **An accepted envelope holds a well-formed arena, one its readers run on, exactly when the `contains` schemas it
carries come before their nodes.** -/
theorem fromWire_wellFormed_iff {bytes : List Byte} {ir : SchemaIR env}
    (h : fromWire bincode blake3 env bytes = .ok ir) :
    (WellFormed ir.wire ∧ (computeHash blake3 ir.wire).isSome ∧ (pass ir.wire).stack = [] ∧
      ∀ i < ir.wire.nodes.length, ∃ route, (pass ir.wire).out i = some route) ↔ CarriesContainsBack bincode bytes := by
  obtain ⟨-, hdec, -⟩ := fromWire_ok h
  have hv := validate_ok ir.valid
  have hcarries : CarriesContainsBack bincode bytes ↔ ContainsBack ir.wire := by
    constructor
    · intro hc
      exact hc _ _ hdec
    · intro hc wire read he
      rw [hdec] at he
      cases he
      exact hc
  rw [hcarries, ← hv.wellFormed_iff]
  constructor
  · intro hw
    exact hw.1
  · intro hw
    exact ⟨hw, (computeHash_isSome hw.toInRange).2 hw.backEdges, (pass_total ir.wire).1, (pass_total ir.wire).2⟩

end

/-- An arena of one node, in one resource without a name. -/
def loneArena (node : Node) : SchemaIRWire where
  irVersion := irVersion
  root := 0
  nodes := [node]
  strings := []
  literals := []
  props := []
  dependentRequiredPairs := []
  requiredBits := []
  nodeRefs := []
  defTargets := []
  retrievalUri := none
  resources := [⟨none, 0, ⟨0, 0⟩, ⟨0, 0⟩⟩]
  anchors := []
  nodeResources := [0]
  options := ⟨.assumeClosedProfile, false, .rejectAtCompile, 64⟩
  diagnostics := []

/-- A frontend that finds every pattern ordinary and no URI. -/
def plainExternals : Externals := ⟨fun _ => .ordinary, fun _ => none⟩

/-- An array that must contain one item of schema 5, in an arena of one node. -/
def forwardContains : SchemaIRWire := loneArena (.array .allowAny 0 none false (some ⟨.schema 5, 1, none⟩) true)

/-- The checksum of its header and payload. -/
def forwardContainsChecksum : Digest := #v[107, 117, 11, 199, 234, 1, 11, 43, 110, 28, 73, 223, 236, 249, 18, 10,
  93, 39, 113, 54, 247, 251, 119, 105, 224, 42, 204, 246, 49, 105, 113, 135]

def forwardContainsIR : SchemaIR plainExternals := ⟨forwardContains, rfl⟩

theorem capped_lone (node : Node) : Capped (loneArena node) := by
  constructor
  all_goals simp [loneArena, literalStrBytes, maxNodes, maxStringsBytes, maxLiterals, maxProps,
    maxDependentRequiredPairs,
    maxRequiredWords, maxNodeRefs, maxResources, maxAnchors, maxDiagnosticCount, maxLiteralStrBytes]

def listUri : Str := ⟨[0x75, 0x72, 0x6e, 0x3a, 0x61], rfl⟩

/-- A frontend that finds every pattern ordinary and knows one URI, which is in normal form. -/
def listExternals : Externals := ⟨fun _ => .ordinary, fun s => if s = listUri then some ⟨false, listUri⟩ else none⟩

/-- An array that must contain the string `a`, in a resource with a URI and an anchor. -/
def listArena : SchemaIRWire :=
  { loneArena .null with
    root := 1
    nodes := [.stringConst ⟨0, 1⟩, .array .allowAny 0 none false (some ⟨.schema 0, 1, none⟩) true]
    strings := [0x61, 0x75, 0x72, 0x6e, 0x3a, 0x61, 0x6e]
    resources := [⟨some ⟨1, 5⟩, 1, ⟨0, 1⟩, ⟨1, 0⟩⟩]
    anchors := [⟨0, ⟨6, 1⟩, 1⟩]
    nodeResources := [0, 0] }

/-- The checksum of its header and payload. -/
def listChecksum : Digest := #v[243, 42, 241, 74, 169, 127, 161, 52, 20, 215, 208, 233, 217, 65, 168, 214,
  71, 242, 154, 155, 134, 89, 125, 45, 52, 104, 230, 75, 113, 77, 190, 82]

def listIR : SchemaIR listExternals := ⟨listArena, rfl⟩

theorem capped_list : Capped listArena := by
  constructor
  all_goals simp [listArena, loneArena, literalStrBytes, maxNodes, maxStringsBytes, maxLiterals, maxProps,
    maxDependentRequiredPairs, maxRequiredWords, maxNodeRefs, maxResources, maxAnchors, maxDiagnosticCount,
    maxLiteralStrBytes]

/-- What the array contains comes before it, so the arena is well formed and has a hash. -/
theorem fromWire_wellFormed_list : ∃ bytes,
    fromWire fixedInt (fun _ => listChecksum) listExternals bytes = .ok listIR ∧ WellFormed listArena ∧
      (computeHash (fun _ => listChecksum) listArena).isSome ∧ (pass listArena).stack = [] := by
  obtain ⟨bytes, -, h⟩ := fromWire_toWire (fun _ => listChecksum) fixedInt_fixedInt listIR capped_list
  have hback : ContainsBack listArena := by
    intro i n hn c hc
    rcases i with _ | _ | i
    · cases hn
      cases hc
    · cases hn
      cases List.mem_singleton.1 hc
      decide
    · cases hn
  have hcarries : CarriesContainsBack fixedInt bytes := by
    intro wire read hdec
    obtain ⟨-, hdec', -⟩ := fromWire_ok h
    rw [hdec'] at hdec
    obtain ⟨rfl, -⟩ := Prod.mk.inj (Except.ok.inj hdec)
    exact hback
  obtain ⟨hwell, hhash, hpass, -⟩ := (fromWire_wellFormed_iff h).2 hcarries
  exact ⟨bytes, h, hwell, hhash, hpass⟩

/-- The decoder accepts an envelope whose `contains` has a schema out of range, and its hash indexes out of range. -/
theorem fromWire_forwardContains : ∃ bytes ir,
    fromWire fixedInt (fun _ => forwardContainsChecksum) plainExternals bytes = .ok ir ∧ ¬WellFormed ir.wire ∧
      computeHash (fun _ => forwardContainsChecksum) ir.wire = none := by
  obtain ⟨bytes, -, h⟩ :=
    fromWire_toWire (fun _ => forwardContainsChecksum) fixedInt_fixedInt forwardContainsIR (capped_lone _)
  have hforward : ¬∀ i (n : Node), forwardContains.nodes[i]? = some n → ∀ c ∈ schemaRefs forwardContains n,
    c.toNat < i := by
    intro hback
    have h5 := hback 0 (.array .allowAny 0 none false (some ⟨.schema 5, 1, none⟩) true) rfl 5 (List.mem_singleton.2 rfl)
    exact Nat.not_lt_zero _ h5
  have hsome : (computeHash (fun _ => forwardContainsChecksum) forwardContains).isSome ↔ _ :=
    computeHash_isSome (validate_ok forwardContainsIR.valid).inRange
  exact ⟨bytes, forwardContainsIR, h, fun hw => hforward hw.backEdges,
    Option.not_isSome_iff_eq_none.1 (mt hsome.1 hforward)⟩

end Ir
end MaskForge
