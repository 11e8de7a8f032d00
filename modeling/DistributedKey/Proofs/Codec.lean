/-
What is written reads back, whatever bytes follow it.

`RoundTrips a` is said of one value, because lists round-trip only while their number of elements fits the eight bytes
of the prefix. It passes from the parts of a value to the value, through every construction of the format.

- `LawfulWire`: every value of the type round-trips, in few bytes. This is asked of exponents and points only.
- `Payload.payload_toEnvelope`: a message whose body round-trips is read from its envelope.
- `Payload.opcode_of_payload`: whatever a message is read as, it is a message of its kind.
-/
import Mathlib.Tactic
import DistributedKey.Proofs.Index
import DistributedKey.Message

namespace DistributedKey

namespace Wire

variable {α β : Type}

def RoundTrips [Wire α] (a : α) : Prop := ∀ rest : Bytes, (decode : Decoder α) (encode a ++ rest) = .ok (a, rest)

theorem bind_of_ok {x : Decoder α} {f : α → Decoder β} {bs rest : Bytes} {a : α} (h : x bs = .ok (a, rest)) :
    (x >>= f) bs = f a rest := by
  change (x bs >>= fun p => f p.1 p.2) = f a rest
  rw [h]
  rfl

theorem pure_apply (a : α) (bs : Bytes) : (pure a : Decoder α) bs = .ok (a, bs) := rfl

theorem map_of_ok {x : Decoder α} {f : α → β} {bs rest : Bytes} {a : α} (h : x bs = .ok (a, rest)) :
    (f <$> x) bs = .ok (f a, rest) := by
  change (x >>= fun a => pure (f a)) bs = _
  rw [bind_of_ok h, pure_apply]

theorem RoundTrips.read [Wire α] {a : α} (h : RoundTrips a) : read (encode a) = .ok a := by
  have hnil := h []
  rw [List.append_nil] at hnil
  change Except.map _ (decode (encode a)) = _
  rw [hnil]
  rfl

/-! ## numbers -/

theorem take_append (bs rest : Bytes) : take bs.length (bs ++ rest) = .ok (bs, rest) := by
  simp [take]

theorem number_append (width n : Nat) (rest : Bytes) (h : n < Nat.pow 256 width) :
    number width (Bytes.ofNat width n ++ rest) = .ok (n, rest) := by
  have htake := take_append (Bytes.ofNat width n) rest
  rw [Bytes.length_ofNat] at htake
  rw [number, bind_of_ok htake, pure_apply, Bytes.toNat_ofNat, Nat.mod_eq_of_lt h]

theorem number_one (b : UInt8) (rest : Bytes) : number 1 (b :: rest) = .ok (b.toNat, rest) := by
  have htake : take 1 (b :: rest) = .ok ([b], rest) := take_append [b] rest
  rw [number, bind_of_ok htake, pure_apply]
  simp [Bytes.toNat]

theorem roundTrips_uint8 (n : UInt8) : RoundTrips n := fun rest => by
  change (number 1 >>= fun m => pure (UInt8.ofNat m)) (n :: rest) = _
  rw [bind_of_ok (number_one n rest), pure_apply, UInt8.ofNat_toNat]

theorem roundTrips_uint32 (n : UInt32) : RoundTrips n := fun rest => by
  change (number 4 >>= fun m => pure (UInt32.ofNat m)) (Bytes.ofNat 4 n.toNat ++ rest) = _
  rw [bind_of_ok (number_append 4 _ rest n.toNat_lt), pure_apply, UInt32.ofNat_toNat]

/-! ## parts and wholes -/

theorem many_append {element : Decoder α} {write : α → Bytes} {as : List α}
    (h : ∀ a ∈ as, ∀ rest, element (write a ++ rest) = .ok (a, rest)) (rest : Bytes) :
    many element as.length (as.flatMap write ++ rest) = .ok (as, rest) := by
  induction as with
  | nil => rfl
  | cons a as ih =>
    have ha := h a List.mem_cons_self (as.flatMap write ++ rest)
    rw [List.flatMap_cons, List.append_assoc, List.length_cons, many, bind_of_ok ha,
      bind_of_ok (ih fun b hb => h b (List.mem_cons_of_mem _ hb)), pure_apply]

theorem case_append {bound number : Nat} {ofNat? : Nat → Option α} {a : α} (hnumber : number < 2 ^ 32)
    (ha : ofNat? number = some a) (rest : Bytes) : case bound ofNat? (encodeCase number ++ rest) = .ok (a, rest) := by
  rw [case, encodeCase, bind_of_ok (number_append 4 _ rest (by simpa using hnumber)), ha]
  rfl

variable [Wire α] [Wire β]

theorem roundTrips_list {as : List α} (hlen : as.length < 2 ^ 64) (h : ∀ a ∈ as, RoundTrips a) : RoundTrips as :=
  fun rest => by
    change (number 8 >>= many decode) (Bytes.ofNat 8 as.length ++ as.flatMap encode ++ rest) = _
    rw [List.append_assoc, bind_of_ok (number_append 8 _ _ (by simpa using hlen)), many_append h]

theorem roundTrips_vector {n : Nat} {as : Vector α n} (h : ∀ a ∈ as.toList, RoundTrips a) : RoundTrips as :=
  fun rest => by
    have hmany := many_append h rest
    rw [Vector.length_toList] at hmany
    change (many decode n (as.toList.flatMap encode ++ rest) >>= _) = _
    rw [hmany]
    have hsize : as.toList.toArray.size = n := by simp
    change (if h : as.toList.toArray.size = n then _ else _) = _
    rw [dif_pos hsize]
    rfl

theorem roundTrips_none : RoundTrips (none : Option α) := fun rest => by
  change (number 1 >>= _) (0 :: rest) = _
  rw [bind_of_ok (number_one 0 rest)]
  rfl

theorem RoundTrips.some {a : α} (h : RoundTrips a) : RoundTrips (some a) := fun rest => by
  change (number 1 >>= _) (1 :: (encode a ++ rest)) = _
  rw [bind_of_ok (number_one 1 _)]
  change (decode >>= fun a => pure (Option.some a)) (encode a ++ rest) = _
  rw [bind_of_ok (h rest), pure_apply]

theorem RoundTrips.prod {a : α} {b : β} (ha : RoundTrips a) (hb : RoundTrips b) : RoundTrips (a, b) := fun rest => by
  change (decode >>= fun a => decode >>= fun b => pure (a, b)) (encode a ++ encode b ++ rest) = _
  rw [List.append_assoc, bind_of_ok (ha _), bind_of_ok (hb _), pure_apply]

omit [Wire α] in
/-- a record round-trips as the tuple of its fields -/
theorem roundTrips_via (unpack : α → β) (pack : β → α) {a : α} (h : RoundTrips (unpack a))
    (hpack : pack (unpack a) = a) : @RoundTrips α (Wire.via unpack pack) a := fun rest => by
  change (decode >>= fun b => pure (pack b)) (encode (unpack a) ++ rest) = _
  rw [bind_of_ok (h rest), pure_apply, hpack]

end Wire

/-- **Values with a canonical byte form round-trip** when that form reads back. -/
theorem Wire.roundTrips_canonical {α : Type} [Canonical α] {a : α} (h : Canonical.ofBytes (Canonical.toBytes a) = .ok a)
    (hlen : (Canonical.toBytes a).length < 2 ^ 64) : Wire.RoundTrips a := fun rest => by
  have hbytes : Wire.RoundTrips (Canonical.toBytes a) := Wire.roundTrips_list hlen fun b _ => Wire.roundTrips_uint8 b
  change (Wire.decode >>= _) (Wire.encode (Canonical.toBytes a) ++ rest) = _
  rw [Wire.bind_of_ok (hbytes rest), h]
  rfl

namespace Wire

/-! ## lengths -/

section

variable {α β : Type} [Wire α] [Wire β]

@[simp] theorem length_encode_index (i : Index) : (encode i).length = 4 := Bytes.length_ofNat 4 _

@[simp] theorem length_encode_prod (a : α) (b : β) :
    (encode (a, b)).length = (encode a).length + (encode b).length := List.length_append

@[simp] theorem length_encode_list (as : List α) : (encode as).length = 8 + (as.flatMap encode).length := by
  change (Bytes.ofNat 8 as.length ++ _).length = _
  rw [List.length_append, Bytes.length_ofNat]

end

theorem length_encode_bytes (bs : Bytes) : (encode bs).length = 8 + bs.length := by
  change (Bytes.ofNat 8 bs.length ++ bs.flatMap fun b => [b]).length = _
  rw [List.flatMap_singleton', List.length_append, Bytes.length_ofNat]

theorem length_encode_canonical {α : Type} [Canonical α] (a : α) :
    (encode a).length = 8 + (Canonical.toBytes a).length := length_encode_bytes _

@[simp] theorem length_encode_sharePair {F : Type} [Wire F] (pair : SharePair F) :
    (encode pair).length = 4 + ((encode pair.value).length + (encode pair.blinding).length) := by
  change (encode (pair.index, pair.value, pair.blinding)).length = _
  rw [length_encode_prod, length_encode_prod, length_encode_index]

end Wire

/-- every value of the type round-trips, and takes few bytes -/
class LawfulWire (α : Type) [Wire α] : Prop where
  roundTrips : ∀ a : α, Wire.RoundTrips a
  length_encode_lt : ∀ a : α, (Wire.encode a).length < 2 ^ 32

/-! ## messages -/

section

open Wire

variable {F G : Type}

/-- the exponents that are written in a proof -/
def Opening.exponents (π : Opening F G) : List F := [π.challenge, π.responseA, π.responseB]

/-- the points that are written in a proof -/
def Opening.points (π : Opening F G) : List G := [π.publicA, π.publicB]

variable [Wire F] [Wire G]

theorem roundTrips_status (s : Status) : RoundTrips s := fun rest => by
  have hnumber : s.number < 2 ^ 32 := by cases s <;> decide
  have hread : Status.ofNumber? s.number = some s := by cases s <;> rfl
  exact case_append hnumber hread rest

theorem roundTrips_statuses {statuses : List (Option Status)} (h : statuses.length < 2 ^ 64) :
    RoundTrips statuses := by
  refine roundTrips_list h fun cell _ => ?_
  cases cell with
  | none => exact roundTrips_none
  | some s => exact (roundTrips_status s).some

theorem roundTrips_indexMap {α : Type} [Wire α] {m : IndexMap α} (hlen : m.size < 2 ^ 64)
    (h : ∀ e ∈ m.entries, RoundTrips e.2) : RoundTrips m := by
  have hentries : RoundTrips m.entries := roundTrips_list hlen fun e he => (roundTrips_uint32 e.1).prod (h e he)
  exact roundTrips_via IndexMap.entries IndexMap.ofList hentries (IndexMap.ofList_entries m)

theorem roundTrips_poly {p : Poly G} (h : p.length < 2 ^ 64) (hcoeffs : ∀ c ∈ p.coeffs, RoundTrips c) : RoundTrips p :=
  roundTrips_via Poly.coeffs Poly.mk (roundTrips_list h hcoeffs) rfl

theorem roundTrips_sharePair {pair : SharePair F} (hvalue : RoundTrips pair.value)
    (hblinding : RoundTrips pair.blinding) : RoundTrips pair := by
  have hfields : RoundTrips (pair.index, pair.value, pair.blinding) := (roundTrips_uint32 _).prod (hvalue.prod hblinding)
  exact roundTrips_via _ _ hfields rfl

theorem roundTrips_sealedBox {box : SealedBox G} (h : box.body.length < 2 ^ 64) (hephemeral : RoundTrips box.ephemeral) :
    RoundTrips box := by
  have hbody : RoundTrips box.body := roundTrips_list h fun b _ => roundTrips_uint8 b
  have hnonce : RoundTrips box.nonce := roundTrips_vector fun b _ => roundTrips_uint8 b
  have hfields : RoundTrips (box.body, box.ephemeral, box.nonce) := hbody.prod (hephemeral.prod hnonce)
  exact roundTrips_via _ _ hfields rfl

theorem roundTrips_encryptedShare {share : EncryptedShare G} (h : share.secret.body.length < 2 ^ 64)
    (hephemeral : RoundTrips share.secret.ephemeral) : RoundTrips share := by
  have hfields : RoundTrips (share.recipient, share.secret) :=
    (roundTrips_uint32 _).prod (roundTrips_sealedBox h hephemeral)
  exact roundTrips_via _ _ hfields rfl

theorem roundTrips_opening {π : Opening F G} (hexponents : ∀ a ∈ π.exponents, RoundTrips a)
    (hpoints : ∀ c ∈ π.points, RoundTrips c) : RoundTrips π := by
  simp only [Opening.exponents, Opening.points, List.forall_mem_cons] at hexponents hpoints
  obtain ⟨hchallenge, hresponseA, hresponseB, -⟩ := hexponents
  obtain ⟨hpublicA, hpublicB, -⟩ := hpoints
  have hfields : RoundTrips (π.publicA, π.publicB, π.challenge, π.responseA, π.responseB) :=
    hpublicA.prod (hpublicB.prod (hchallenge.prod (hresponseA.prod hresponseB)))
  exact roundTrips_via _ _ hfields rfl

namespace Opcode

theorem code_inj {a b : Opcode} : a.code = b.code ↔ a = b := by
  refine ⟨fun h => ?_, congrArg code⟩
  have hread := congrArg ofCode? h
  rw [ofCode?_code, ofCode?_code] at hread
  exact Option.some.inj hread

theorem eq_code_of_ofCode? {c : UInt8} {kind : Opcode} (h : ofCode? c = some kind) : c = kind.code := by
  unfold ofCode? at h
  split at h <;> cases h <;> rfl

end Opcode

namespace Payload

/-- all lists in a message have a length that can be written -/
def Fits : Payload F G → Prop
  | .contribution c => c.commitments.length < 2 ^ 64 ∧ c.shares.length < 2 ^ 64 ∧
      ∀ share ∈ c.shares, share.secret.body.length < 2 ^ 64
  | .verification statuses => statuses.length < 2 ^ 64
  | .rebuttal _ => True
  | .proof _ => True
  | .bulkProof b => b.proofs.size < 2 ^ 64

omit [Wire F] [Wire G] in
/-- there are no more keys than words -/
theorem fits_bulkProof (b : BulkProof F G) : (Payload.bulkProof b : Payload F G).Fits := by
  have hsize := IndexSet.length_le_of_nodup b.proofs.nodup_keys
  rw [IndexMap.keys, List.length_map] at hsize
  exact hsize.trans_lt (by decide)

/-- the exponents that are written in a message -/
def exponents : Payload F G → List F
  | .contribution _ | .verification _ => []
  | .rebuttal r => [r.share.value, r.share.blinding]
  | .proof π => π.exponents
  | .bulkProof b => b.proofs.entries.flatMap fun e => e.2.exponents

/-- the points that are written in a message -/
def points : Payload F G → List G
  | .contribution c => c.commitments.coeffs ++ c.shares.map fun share => share.secret.ephemeral
  | .verification _ | .rebuttal _ => []
  | .proof π => π.points
  | .bulkProof b => b.proofs.entries.flatMap fun e => e.2.points

/-- reads the body of a message of this kind -/
def decoder : Opcode → Decoder (Payload F G)
  | .contribution => contribution <$> Wire.decode
  | .verification => verification <$> Wire.decode
  | .rebuttal => rebuttal <$> Wire.decode
  | .proof => proof <$> Wire.decode
  | .bulkProof => bulkProof <$> Wire.decode

theorem read_eq (kind : Opcode) (bs : Bytes) :
    (read kind bs : Except WireError (Payload F G)) = (decoder kind bs).map (·.1) := by
  have hmap : ∀ {α : Type} [Wire α] (f : α → Payload F G),
      (Wire.read bs).map f = (((f <$> Wire.decode : Decoder (Payload F G)) bs).map (·.1)) := by
    intro α _ f
    change Except.map f (Except.map _ (Wire.decode bs)) = Except.map _ (Wire.decode bs >>= fun p => pure (f p.1, p.2))
    cases (Wire.decode bs : Except WireError (α × Bytes)) <;> rfl
  cases kind <;> exact hmap _

/-- a body is read as the message, whatever bytes follow it -/
theorem decoder_body {x : Payload F G} (h : x.Fits) (hexponents : ∀ a ∈ x.exponents, RoundTrips a)
    (hpoints : ∀ c ∈ x.points, RoundTrips c) (rest : Bytes) : decoder x.opcode (x.body ++ rest) = .ok (x, rest) := by
  have hmap : ∀ {α : Type} [Wire α] {a : α} (f : α → Payload F G), RoundTrips a →
      (f <$> Wire.decode : Decoder (Payload F G)) (encode a ++ rest) = .ok (f a, rest) := fun _ ha => map_of_ok (ha rest)
  cases x with
  | contribution c =>
    obtain ⟨hcommitments, hshares, hbodies⟩ := h
    simp only [points, List.forall_mem_append, List.forall_mem_map] at hpoints
    have hshares' : RoundTrips c.shares := roundTrips_list hshares fun share hshare =>
      roundTrips_encryptedShare (hbodies share hshare) (hpoints.2 share hshare)
    have hfields : RoundTrips (c.commitments, c.shares) := (roundTrips_poly hcommitments hpoints.1).prod hshares'
    exact hmap contribution (roundTrips_via _ _ hfields rfl)
  | verification statuses => exact hmap verification (roundTrips_statuses h)
  | rebuttal r =>
    simp only [exponents, List.forall_mem_cons] at hexponents
    have hfields : RoundTrips (r.accuser, r.share) :=
      (roundTrips_uint32 _).prod (roundTrips_sharePair hexponents.1 hexponents.2.1)
    exact hmap rebuttal (roundTrips_via _ _ hfields rfl)
  | proof π => exact hmap proof (roundTrips_opening hexponents hpoints)
  | bulkProof b =>
    have hproofs : RoundTrips b.proofs := roundTrips_indexMap h fun e he =>
      roundTrips_opening (fun a ha => hexponents a (List.mem_flatMap.2 ⟨e, he, ha⟩))
        fun c hc => hpoints c (List.mem_flatMap.2 ⟨e, he, hc⟩)
    exact hmap bulkProof (roundTrips_via BulkProof.proofs BulkProof.mk hproofs rfl)

end Payload

/-- an envelope is opened by the reader of its kind -/
theorem Envelope.payload_eq {e : Envelope} {kind : Opcode} (h : Opcode.ofCode? e.opcode = some kind) :
    (e.payload : Except Violation (Payload F G)) =
      ((Payload.decoder kind e.body).map (·.1)).mapError (.malformed kind) := by
  rw [← Payload.read_eq]
  rcases hread : (Payload.read kind e.body : Except WireError (Payload F G)) with cause | x <;>
    simp only [Envelope.payload, h, hread] <;> rfl

/-- a vector reads back whatever the arithmetic is -/
theorem read_verification {statuses : List (Option Status)} (h : statuses.length < 2 ^ 64) :
    Payload.read .verification (Wire.encode statuses) = .ok (.verification statuses : Payload F G) := by
  rw [Payload.read, (roundTrips_statuses h).read]
  rfl

/-- **A message is read from its envelope as it was written.** -/
theorem Payload.payload_toEnvelope [LawfulWire F] [LawfulWire G] {x : Payload F G} (h : x.Fits) (i : Index) :
    (x.toEnvelope i).payload = .ok x := by
  have hread := Payload.decoder_body h (fun a _ => LawfulWire.roundTrips a) (fun c _ => LawfulWire.roundTrips c) []
  rw [List.append_nil] at hread
  rw [Envelope.payload_eq (Opcode.ofCode?_code x.opcode), show (x.toEnvelope i).body = x.body from rfl, hread]
  rfl

theorem payload_rebuttal [LawfulWire F] [LawfulWire G] (b : Rebuttal F) (i : Index) :
    ((Payload.rebuttal b : Payload F G).toEnvelope i).payload = .ok (.rebuttal b : Payload F G) :=
  Payload.payload_toEnvelope (show (Payload.rebuttal b : Payload F G).Fits from trivial) i

/-- a body reads as a message of the kind it is read as -/
theorem opcode_of_read {kind : Opcode} {body : Bytes} {y : Payload F G} (h : Payload.read kind body = .ok y) :
    y.opcode = kind := by
  have hmap : ∀ {α : Type} {f : α → Payload F G} {x : Except WireError α}, x.map f = .ok y → ∃ a, f a = y := by
    intro α f x hx
    cases x with
    | error cause => cases hx
    | ok a => exact ⟨a, Except.ok.inj hx⟩
  cases kind with
  | contribution => obtain ⟨c, rfl⟩ := hmap h; rfl
  | verification => obtain ⟨statuses, rfl⟩ := hmap h; rfl
  | rebuttal => obtain ⟨b, rfl⟩ := hmap h; rfl
  | proof => obtain ⟨π, rfl⟩ := hmap h; rfl
  | bulkProof => obtain ⟨b, rfl⟩ := hmap h; rfl

/-- an entry carries the tag of what it reads as -/
theorem Envelope.opcode_of_payload {e : Envelope} {y : Payload F G} (h : e.payload = .ok y) :
    e.opcode = y.opcode.code := by
  unfold Envelope.payload at h
  rcases hkind : Opcode.ofCode? e.opcode with _ | kind
  · rw [hkind] at h
    cases h
  · simp only [hkind] at h
    rcases hread : (Payload.read kind e.body : Except WireError (Payload F G)) with cause | y'
    · rw [hread] at h
      cases h
    · rw [hread] at h
      obtain rfl := Except.ok.inj h
      rw [Opcode.eq_code_of_ofCode? hkind, opcode_of_read hread]

/-- a message reads as one of its own kind -/
theorem Payload.opcode_of_payload {x y : Payload F G} {i : Index} (h : (x.toEnvelope i).payload = .ok y) :
    x.opcode = y.opcode :=
  Opcode.code_inj.1 (Envelope.opcode_of_payload h)

/-- only a vector reads as a vector -/
theorem eq_of_payload_verification {x : Payload F G} {i : Index} {statuses : List (Option Status)}
    (h : (x.toEnvelope i).payload = .ok (.verification statuses : Payload F G)) :
    ∃ sent, x = .verification sent ∧ (sent.length < 2 ^ 64 → sent = statuses) := by
  have hkind := Payload.opcode_of_payload h
  cases x with
  | verification sent =>
    refine ⟨sent, rfl, fun hlen => ?_⟩
    simp only [Envelope.payload, Payload.toEnvelope, Payload.opcode, Payload.body, Opcode.ofCode?_code,
      read_verification hlen] at h
    exact Payload.verification.inj (Except.ok.inj h)
  | contribution _ | rebuttal _ | proof _ | bulkProof _ => cases hkind

end

end DistributedKey
