/-
The byte format finds its own end: what follows a value is not looked at, and nothing less than the value is enough.

`Delimited` is said of a decoder: more input changes neither a value that it has read nor a refusal, so that all it can
do with too little is ask for more. It passes from the parts of a decoder to the decoder, through every construction of
the format, and `DelimitedWire` finds it for the type of each message.

- `Delimited.endOfInput`: a decoder that uses up its input reads no part of it.
- `Payload.fits_of_length`: a body of fewer than 2⁶⁴ bytes holds no list or byte form too long for its prefix.
- `wire_delimited`: a message and its envelope are read as they were written, with any bytes after them, and no strict
  prefix of a body is read as anything.
-/
import Mathlib.Tactic
import DistributedKey.Proofs.Codec
import DistributedKey.Proofs.Residue

namespace DistributedKey

namespace Wire

variable {α β : Type}

/-! ## decoders that find the end of their input -/

structure Delimited (d : Decoder α) : Prop where
  /-- bytes after a value are left over -/
  ok {bs rest : Bytes} {a : α} (more : Bytes) (h : d bs = .ok (a, rest)) : d (bs ++ more) = .ok (a, rest ++ more)
  /-- only a lack of input is made good by more of it -/
  error {bs : Bytes} {cause : WireError} (more : Bytes) (h : d bs = .error cause) (hcause : cause ≠ .endOfInput) :
    d (bs ++ more) = .error cause

/-- no part of what a decoder uses up is enough -/
theorem Delimited.endOfInput {d : Decoder α} (hd : Delimited d) {bs part : Bytes} {a : α} (h : d bs = .ok (a, []))
    (hpart : part <+: bs) (hne : part ≠ bs) : d part = .error .endOfInput := by
  obtain ⟨more, rfl⟩ := hpart
  rcases hread : d part with cause | ⟨b, rest⟩
  · by_contra hcause
    have hmore := hd.error more hread fun hend => hcause (by rw [hend])
    rw [h] at hmore
    cases hmore
  · have hmore := hd.ok more hread
    rw [h] at hmore
    have hnil : rest ++ more = [] := (congrArg Prod.snd (Except.ok.inj hmore)).symm
    rw [(List.append_eq_nil_iff.1 hnil).2, List.append_nil] at hne
    exact absurd rfl hne

theorem delimited_pure (a : α) : Delimited (pure a : Decoder α) where
  ok more h := by
    obtain ⟨rfl, rfl⟩ := Prod.mk.inj (Except.ok.inj h)
    rfl
  error _ h := by cases h

theorem delimited_throw (cause : WireError) : Delimited (throw cause : Decoder α) where
  ok _ h := by cases h
  error _ h _ := by cases h; rfl

theorem Delimited.bind {d : Decoder α} {f : α → Decoder β} (hd : Delimited d) (hf : ∀ a, Delimited (f a)) :
    Delimited (d >>= f) where
  ok {bs rest b} more h := by
    change (d bs >>= fun p => f p.1 p.2) = _ at h
    change (d (bs ++ more) >>= fun p => f p.1 p.2) = _
    rcases hread : d bs with cause | ⟨a, mid⟩
    · rw [hread] at h
      cases h
    · rw [hread] at h
      rw [hd.ok more hread]
      exact (hf a).ok more h
  error {bs cause} more h hcause := by
    change (d bs >>= fun p => f p.1 p.2) = _ at h
    change (d (bs ++ more) >>= fun p => f p.1 p.2) = _
    rcases hread : d bs with cause' | ⟨a, mid⟩
    · rw [hread] at h
      obtain rfl := Except.error.inj h
      rw [hd.error more hread hcause]
      rfl
    · rw [hread] at h
      rw [hd.ok more hread]
      exact (hf a).error more h hcause

theorem Delimited.map {d : Decoder α} (hd : Delimited d) (f : α → β) : Delimited (f <$> d) :=
  hd.bind fun a => delimited_pure (f a)

theorem delimited_take (count : Nat) : Delimited (take count) where
  ok {bs rest a} more h := by
    unfold take at h ⊢
    split_ifs at h with hlen
    have hcount : count ≤ bs.length := by
      rw [List.length_take] at hlen
      omega
    obtain ⟨rfl, rfl⟩ := Prod.mk.inj (Except.ok.inj h)
    rw [List.take_append_of_le_length hcount, List.drop_append_of_le_length hcount, if_pos hlen]
  error {bs cause} more h hcause := by
    unfold take at h
    split_ifs at h
    exact absurd (Except.error.inj h).symm hcause

theorem delimited_number (width : Nat) : Delimited (number width) := (delimited_take width).map Bytes.toNat

theorem Delimited.many {d : Decoder α} (hd : Delimited d) (count : Nat) : Delimited (many d count) := by
  induction count with
  | zero => exact delimited_pure []
  | succ count ih => exact hd.bind fun a => ih.bind fun as => delimited_pure (a :: as)

theorem delimited_case (bound : Nat) (ofNat? : Nat → Option α) : Delimited (case bound ofNat?) := by
  refine (delimited_number 4).bind fun found => ?_
  cases ofNat? found with
  | none => exact delimited_throw _
  | some a => exact delimited_pure a

end Wire

/-- a type whose values find their own end -/
class DelimitedWire (α : Type) [Wire α] : Prop where
  delimited : Wire.Delimited (Wire.decode : Decoder α)

namespace Wire

variable {α β : Type}

instance : DelimitedWire UInt8 := ⟨(delimited_number 1).map UInt8.ofNat⟩

instance : DelimitedWire UInt32 := ⟨(delimited_number 4).map UInt32.ofNat⟩

section

variable [Wire α] [DelimitedWire α] [Wire β] [DelimitedWire β]

instance : DelimitedWire (List α) := ⟨(delimited_number 8).bind fun count => DelimitedWire.delimited.many count⟩

instance {n : Nat} : DelimitedWire (Vector α n) := by
  have hread : ∀ as : List α, Delimited (if h : as.toArray.size = n then pure (⟨as.toArray, h⟩ : Vector α n)
      else throw .endOfInput : Decoder (Vector α n)) := by
    intro as
    split
    · exact delimited_pure _
    · exact delimited_throw _
  refine ⟨?_⟩
  convert (DelimitedWire.delimited.many n).bind hread using 1
  funext bs
  change (many decode n bs >>= _) = (many decode n bs >>= _)
  congr 1
  funext p
  dsimp only
  split <;> rfl

instance : DelimitedWire (Option α) := ⟨(delimited_number 1).bind fun tag => by
  split
  · exact delimited_pure _
  · exact DelimitedWire.delimited.map _
  · exact delimited_throw _⟩

instance : DelimitedWire (α × β) :=
  ⟨DelimitedWire.delimited.bind fun a => DelimitedWire.delimited.bind fun b => delimited_pure (a, b)⟩

end

instance (priority := low) [Canonical α] : DelimitedWire α :=
  ⟨(DelimitedWire.delimited (α := Bytes)).bind fun bs => by
    split
    · exact delimited_pure _
    · exact delimited_throw _⟩

theorem delimited_via [Wire β] [DelimitedWire β] (unpack : α → β) (pack : β → α) :
    @DelimitedWire α (Wire.via unpack pack) :=
  @DelimitedWire.mk α (Wire.via unpack pack) (DelimitedWire.delimited.map pack)

end Wire

/-! ## messages -/

section

open Wire

variable {F G : Type} [Wire F] [Wire G]

instance : DelimitedWire Status := ⟨delimited_case 2 Status.ofNumber?⟩

instance : DelimitedWire Envelope := delimited_via _ _

variable [DelimitedWire F] [DelimitedWire G]

instance {α : Type} [Wire α] [DelimitedWire α] : DelimitedWire (IndexMap α) := delimited_via _ _

instance : DelimitedWire (Poly G) := delimited_via _ _

instance : DelimitedWire (SharePair F) := delimited_via _ _

instance : DelimitedWire (SealedBox G) := delimited_via _ _

instance : DelimitedWire (EncryptedShare G) := delimited_via _ _

instance : DelimitedWire (Contribution G) := delimited_via _ _

instance : DelimitedWire (Rebuttal F) := delimited_via _ _

instance : DelimitedWire (Opening F G) := delimited_via _ _

instance : DelimitedWire (BulkProof F G) := delimited_via _ _

theorem Payload.delimited_decoder (kind : Opcode) : Delimited (Payload.decoder kind : Decoder (Payload F G)) := by
  cases kind <;> exact DelimitedWire.delimited.map _

end

/-! ## lengths -/

section

open Wire

variable {α β : Type}

theorem length_le_flatMap (write : α → Bytes) {as : List α} {a : α} (ha : a ∈ as) :
    (write a).length ≤ (as.flatMap write).length := by
  rw [List.length_flatMap]
  exact List.le_sum_of_mem (List.mem_map_of_mem ha)

/-- no value is written in no bytes: there are as many bytes as values -/
theorem count_le_flatMap {write : α → Bytes} {as : List α} (h : ∀ a ∈ as, 0 < (write a).length) :
    as.length ≤ (as.flatMap write).length := by
  rw [List.length_flatMap]
  have hsum := List.length_le_sum_of_one_le (as.map fun a => (write a).length) (List.forall_mem_map.2 h)
  rwa [List.length_map] at hsum

variable {F G : Type} [Wire F] [Wire G]

@[simp] theorem length_encode_poly (p : Poly G) : (encode p).length = 8 + (p.coeffs.flatMap encode).length :=
  length_encode_list p.coeffs

@[simp] theorem length_encode_box (box : SealedBox G) :
    (encode box).length = 8 + box.body.length + ((encode box.ephemeral).length + (encode box.nonce).length) := by
  change (encode (box.body, box.ephemeral, box.nonce)).length = _
  rw [length_encode_prod, length_encode_prod, length_encode_bytes]

@[simp] theorem length_encode_share (share : EncryptedShare G) :
    (encode share).length = 4 + (encode share.secret).length := by
  change (encode (share.recipient, share.secret)).length = _
  rw [length_encode_prod, length_encode_index]

theorem length_le_opening {π : Opening F G} :
    (∀ a ∈ π.exponents, (encode a).length ≤ (encode π).length) ∧
    ∀ c ∈ π.points, (encode c).length ≤ (encode π).length := by
  have hlen : (encode π).length = (encode π.publicA).length + ((encode π.publicB).length +
      ((encode π.challenge).length + ((encode π.responseA).length + (encode π.responseB).length))) := by
    change (encode (π.publicA, π.publicB, π.challenge, π.responseA, π.responseB)).length = _
    simp only [length_encode_prod]
  simp only [Opening.exponents, Opening.points, List.forall_mem_cons, List.not_mem_nil, false_imp_iff, implies_true,
    and_true]
  omega

end

namespace Payload

open Wire

variable {F G : Type} [Wire F] [Wire G] {x : Payload F G}

theorem length_body_contribution (c : Contribution G) : (contribution c : Payload F G).body.length =
    8 + (c.commitments.coeffs.flatMap encode).length + (8 + (c.shares.flatMap encode).length) := by
  change (encode (c.commitments, c.shares)).length = _
  rw [length_encode_prod, length_encode_poly, length_encode_list]

theorem length_body_bulkProof (b : BulkProof F G) :
    (bulkProof b : Payload F G).body.length = 8 + (b.proofs.entries.flatMap encode).length :=
  length_encode_list b.proofs.entries

theorem length_le_body :
    (∀ a ∈ x.exponents, (encode a).length ≤ x.body.length) ∧ ∀ c ∈ x.points, (encode c).length ≤ x.body.length := by
  cases x with
  | contribution c =>
    refine ⟨fun a ha => absurd ha List.not_mem_nil, ?_⟩
    simp only [points, List.forall_mem_append, List.forall_mem_map, length_body_contribution]
    refine ⟨fun c' hc' => ?_, fun share hshare => ?_⟩
    · have := length_le_flatMap encode hc'
      omega
    · have := length_le_flatMap encode hshare
      rw [length_encode_share, length_encode_box] at this
      omega
  | verification statuses => exact ⟨fun a ha => absurd ha List.not_mem_nil, fun c hc => absurd hc List.not_mem_nil⟩
  | rebuttal r =>
    refine ⟨?_, fun c hc => absurd hc List.not_mem_nil⟩
    have hlen : (rebuttal r : Payload F G).body.length = 4 + (encode r.share).length := length_encode_prod r.accuser r.share
    rw [length_encode_sharePair] at hlen
    simp only [exponents, List.forall_mem_cons, List.not_mem_nil, false_imp_iff, implies_true, and_true]
    omega
  | proof π => exact length_le_opening
  | bulkProof b =>
    have hentry : ∀ e ∈ b.proofs.entries, (encode e.2).length ≤ (bulkProof b : Payload F G).body.length := by
      intro e he
      have hle := length_le_flatMap encode he
      rw [length_encode_prod e.1 e.2] at hle
      rw [length_body_bulkProof]
      omega
    simp only [exponents, points, List.mem_flatMap]
    constructor
    · rintro a ⟨e, he, ha⟩
      exact (length_le_opening.1 a ha).trans (hentry e he)
    · rintro c ⟨e, he, hc⟩
      exact (length_le_opening.2 c hc).trans (hentry e he)

/-- what is written in fewer bytes than a number can count has no more elements than a prefix can count -/
theorem fits_of_length (hpoints : ∀ c ∈ x.points, 0 < (encode c).length) (h : x.body.length < 2 ^ 64) : x.Fits := by
  cases x with
  | contribution c =>
    simp only [points, List.forall_mem_append] at hpoints
    rw [length_body_contribution] at h
    have hcommitments := count_le_flatMap hpoints.1
    have hshares : c.shares.length ≤ (c.shares.flatMap encode).length :=
      count_le_flatMap fun share _ => by rw [length_encode_share]; omega
    refine ⟨by rw [Poly.length]; omega, by omega, fun share hshare => ?_⟩
    have hbody := length_le_flatMap encode hshare
    rw [length_encode_share, length_encode_box] at hbody
    omega
  | verification statuses =>
    have hcells : statuses.length ≤ (statuses.flatMap encode).length := count_le_flatMap fun cell _ => by
      cases cell <;> exact Nat.succ_pos _
    have hlen : (encode statuses).length < 2 ^ 64 := h
    rw [length_encode_list] at hlen
    exact (show statuses.length < 2 ^ 64 by omega)
  | rebuttal r => trivial
  | proof π => trivial
  | bulkProof b => exact fits_bulkProof b

end Payload

/-! ## what is written is read, and nothing less -/

section

open Wire

variable {F G : Type} [Canonical F] [Canonical G]

/-- byte forms that read back do so inside of a message that can be written -/
theorem Payload.decoder_body_of_canonical (hexponents : ∀ a : F, Canonical.ofBytes (Canonical.toBytes a) = .ok a)
    {x : Payload F G} (hpoints : ∀ c ∈ x.points, Canonical.ofBytes (Canonical.toBytes c) = .ok c)
    (hlen : x.body.length < 2 ^ 64) (rest : Bytes) : decoder x.opcode (x.body ++ rest) = .ok (x, rest) := by
  obtain ⟨hexponentsLe, hpointsLe⟩ := x.length_le_body
  have hfits : x.Fits := fits_of_length (fun c _ => by rw [length_encode_canonical]; omega) hlen
  refine decoder_body hfits (fun a ha => roundTrips_canonical (hexponents a) ?_)
    (fun c hc => roundTrips_canonical (hpoints c hc) ?_) rest
  · have := hexponentsLe a ha
    rw [length_encode_canonical] at this
    omega
  · have := hpointsLe c hc
    rw [length_encode_canonical] at this
    omega

variable [Suite F G]

/-- **A message is read from its envelope as it was written, also when the envelope was itself written and read.** Bytes
after the body are not looked at, and of no strict prefix of the body is anything read. -/
theorem wire_delimited (hexponents : ∀ a : F, Canonical.ofBytes (Canonical.toBytes a) = .ok a)
    (hpoints : ∀ c : G, Suite.onCurve c = true → Suite.inSubgroup c = true →
      Canonical.ofBytes (Canonical.toBytes c) = .ok c)
    (x : Payload F G) (hx : ∀ c ∈ x.points, Suite.onCurve c = true ∧ Suite.inSubgroup c = true)
    (hlen : x.body.length < 2 ^ 64) (i : Index) :
    (x.toEnvelope i).sender = i ∧ Opcode.ofCode? (x.toEnvelope i).opcode = some x.opcode ∧
    (x.toEnvelope i).payload = .ok x ∧ Wire.read (Wire.encode (x.toEnvelope i)) = .ok (x.toEnvelope i) ∧
    (∀ more : Bytes, ({ x.toEnvelope i with body := x.body ++ more } : Envelope).payload = .ok x) ∧
    ∀ part : Bytes, part <+: x.body → part ≠ x.body →
      ({ x.toEnvelope i with body := part } : Envelope).payload =
        (.error (.malformed x.opcode .endOfInput) : Except Violation (Payload F G)) ∧
      (Violation.malformed x.opcode .endOfInput).condition = x.opcode.decodeFailure := by
  have hbody := x.decoder_body_of_canonical hexponents (fun c hc => hpoints c (hx c hc).1 (hx c hc).2) hlen
  have hkind : Opcode.ofCode? (x.toEnvelope i).opcode = some x.opcode := Opcode.ofCode?_code x.opcode
  -- every body in question is read by the decoder of the kind that the envelope names
  have hopen : ∀ body : Bytes, (({ x.toEnvelope i with body } : Envelope).payload : Except Violation (Payload F G)) =
      ((Payload.decoder x.opcode body).map (·.1)).mapError (.malformed x.opcode) := fun body =>
    Envelope.payload_eq hkind
  have hmore : ∀ more : Bytes, ({ x.toEnvelope i with body := x.body ++ more } : Envelope).payload = .ok x := by
    intro more
    rw [hopen, hbody more]
    rfl
  have henvelope : RoundTrips (x.toEnvelope i) := by
    have hfields : RoundTrips (i, x.opcode.code, x.body) :=
      (roundTrips_uint32 i).prod ((roundTrips_uint8 _).prod (roundTrips_list hlen fun b _ => roundTrips_uint8 b))
    exact roundTrips_via _ _ hfields rfl
  have hwhole := hbody []
  rw [List.append_nil] at hwhole
  refine ⟨rfl, hkind, ?_, henvelope.read, hmore, fun part hpart hne => ⟨?_, rfl⟩⟩
  · have hnil := hmore []
    rwa [List.append_nil] at hnil
  · rw [hopen, (Payload.delimited_decoder x.opcode).endOfInput hwhole hpart hne]
    rfl

end

/-- a dealer's contribution of two commitments and one sealed share -/
def sealedForZero : Payload (ZMod 11) (ZMod 11) :=
  .contribution ⟨⟨[3, 5]⟩, [⟨0, ⟨[7, 7], 4, Vector.replicate 12 0⟩⟩]⟩

theorem wire_delimited_contribution : sealedForZero.body.length = 90 ∧
    (sealedForZero.toEnvelope 2).payload = .ok sealedForZero ∧
    ∀ part : Bytes, part <+: sealedForZero.body → part ≠ sealedForZero.body →
      ({ sealedForZero.toEnvelope 2 with body := part } : Envelope).payload =
        (.error (.malformed .contribution .endOfInput) : Except Violation (Payload (ZMod 11) (ZMod 11))) := by
  have hlen : sealedForZero.body.length = 90 := by decide
  have hall := wire_delimited (ofBytes_toBytes_residue (by norm_num)) (fun c _ _ => ofBytes_toBytes_residue (by norm_num) c)
    sealedForZero (fun _ _ => ⟨rfl, rfl⟩) (by rw [hlen]; norm_num) 2
  exact ⟨hlen, hall.2.2.1, fun part hpart hne => (hall.2.2.2.2.2 part hpart hne).1⟩

end DistributedKey
