import QuaiSdk.Consensus.Crypto
import QuaiSdk.Provider.HeaderHash
import Mathlib.Algebra.Order.BigOperators.Group.List

/-!
# Header hashes bind

Where BLAKE3 does not collide on the strings that two verifications hash, equal header hashes come
from equal sealed fields and equal block hashes from equal work objects.  Everything rests on the
writer being a prefix code: a message is read back field by field.
-/

namespace QuaiSdk.Provider

open Result PrefixCode SealValue List Except

theorem prefixFree_proto : PrefixFree Set.univ ProtoField.write := by
  rintro ⟨tag, value⟩ _ ⟨tag', value'⟩ _ rest rest' h
  -- the key tells the tag and the kind of the value
  cases value <;> cases value' <;> simp only [ProtoField.write, append_assoc] at h <;>
    obtain ⟨htag, h⟩ := prefixFree_varint _ trivial _ trivial _ _ h
  · obtain ⟨rfl, hrest⟩ := prefixFree_varint _ trivial _ trivial _ _ h
    exact ⟨by rw [show tag = tag' by omega], hrest⟩
  · omega
  · omega
  · rw [← append_assoc, ← append_assoc _ _ rest'] at h
    obtain ⟨rfl, hrest⟩ := prefixFree_counted _ trivial _ trivial _ _ h
    exact ⟨by rw [show tag = tag' by omega], hrest⟩

theorem ProtoField.write_ne_nil (f : ProtoField) : f.write ≠ [] := by
  obtain ⟨tag, value⟩ := f
  cases value with
  | varint | bytes => exact fun h => varint_ne_nil _ (append_eq_nil_iff.mp h).1

variable {fields fields' : List ProtoField} {tag start : ℕ} {h h' : Json.Object}
  {values : List SealValue} {table : List SealRow} {rows : List (List ProtoField)} {kawpow : Bool}

theorem writeProto_injective (h : writeProto fields = writeProto fields') : fields = fields' :=
  prefixFree_proto.flatMap_inj (fun f _ => f.write_ne_nil) (fun _ _ => trivial) (fun _ _ => trivial) h

theorem protoHash_injective {h h' : Hash32} (heq : protoHash tag h = protoHash tag h') :
    h = h' := by
  simp only [protoHash, ProtoField.mk.injEq, ProtoValue.bytes.injEq, true_and] at heq
  have hfields := writeProto_injective heq
  simp only [cons.injEq, ProtoField.mk.injEq, ProtoValue.bytes.injEq, true_and, and_true] at hfields
  exact Hash32.ext hfields

def SealForm.Fits : SealForm → List SealValue → Prop
  | .hash, values => ∃ h, values = [.hash h]
  | .hashes count, values => ∃ hs : List Hash32, hs.length = count ∧ values = hs.map .hash
  | .big, values => ∃ b, values = [.big b]
  | .bigs count, values => ∃ bs : List Bytes, bs.length = count ∧ values = bs.map .big
  | .uint, values => ∃ n, values = [.uint n]
  | .bytes, values => ∃ b, values = [.bytes b]

theorem list_length {o : Json.Object} {name : String} {count : ℕ} {items : List Json}
    (h : list o name count = .ok items) : items.length = count := by
  obtain ⟨value, -, h⟩ := bind_eq_ok.mp h
  cases harray : value.asArray with
  | none =>
    rw [harray] at h
    cases h
  | some =>
    rw [harray] at h
    dsimp only at h
    split at h
    · rename_i hlength
      cases h
      exact hlength
    · cases h

theorem SealRow.read_fits {row : SealRow} (hread : row.read h = .ok values) :
    row.form.Fits values := by
  unfold SealRow.read at hread
  cases hform : row.form with
  | hash | big | uint | bytes =>
    rw [hform] at hread
    obtain ⟨value, -, hread⟩ := bind_eq_ok.mp hread
    exact ⟨value, (ok.inj hread).symm⟩
  | hashes count | bigs count =>
    rw [hform] at hread
    obtain ⟨items, hitems, hread⟩ := bind_eq_ok.mp hread
    obtain ⟨values, hvalues, hread⟩ := bind_eq_ok.mp hread
    exact ⟨values, (forall₂_of_mapM hvalues).length_eq.symm.trans (list_length hitems),
      (ok.inj hread).symm⟩

def SealForm.count : SealForm → ℕ
  | .hashes count | .bigs count => count
  | _ => 1

theorem SealForm.Fits.length_eq {form : SealForm} (h : form.Fits values) :
    values.length = form.count := by
  cases form with
  | hash | big | uint | bytes =>
    obtain ⟨x, rfl⟩ := h
    rfl
  | hashes count | bigs count =>
    obtain ⟨xs, hxs, rfl⟩ := h
    rw [length_map, hxs]
    rfl

theorem SealForm.Fits.proto_inj {form : SealForm} {values' : List SealValue} (h : form.Fits values)
    (h' : form.Fits values')
    (heq : values.map (proto tag) = values'.map (proto tag)) :
    values = values' := by
  have hbig : ∀ b b' : Bytes, proto tag (.big b) = proto tag (.big b') → b = b' := by
    intro b b' hb
    simpa [proto] using hb
  have hhash : ∀ x x' : Hash32, proto tag (.hash x) = proto tag (.hash x') →
      x = x' := fun x x' hx => protoHash_injective hx
  cases form with
  | hash | big | uint | bytes =>
    obtain ⟨x, rfl⟩ := h
    obtain ⟨x', rfl⟩ := h'
    have hx := (cons.inj heq).1
    first
    | rw [hhash x x' hx]
    | rw [hbig x x' hx]
    | simpa [proto] using hx
  | hashes =>
    obtain ⟨xs, -, rfl⟩ := h
    obtain ⟨xs', -, rfl⟩ := h'
    rw [map_map, map_map] at heq
    rw [map_injective_iff.mpr hhash heq]
  | bigs =>
    obtain ⟨bs, -, rfl⟩ := h
    obtain ⟨bs', -, rfl⟩ := h'
    rw [map_map, map_map] at heq
    rw [map_injective_iff.mpr hbig heq]

def SealRow.Writes (h : Json.Object) (row : SealRow) (written : List ProtoField) : Prop :=
  ∃ values, row.read h = .ok values ∧ written = values.map (proto row.tag)

theorem SealValue.tag_proto (tag : ℕ) (value : SealValue) : (value.proto tag).tag = tag := by
  cases value <;> rfl

theorem headerSealFields_eq_ok (hfields : headerSealFields h = .ok fields) :
    ∃ rows, List.Forall₂ (SealRow.Writes h) headerSealRows rows ∧ fields = rows.flatten := by
  obtain ⟨rows, hrows, h'⟩ := bind_eq_ok.mp hfields
  refine ⟨rows, ?_, (ok.inj h').symm⟩
  apply (forall₂_of_mapM hrows).imp
  intro row written hrow
  obtain ⟨values, hvalues, hrow⟩ := bind_eq_ok.mp hrow
  exact ⟨values, hvalues, (ok.inj hrow).symm⟩

theorem read_eq_of_flatten {rows' : List (List ProtoField)}
    (hrows : List.Forall₂ (SealRow.Writes h) table rows)
    (hrows' : List.Forall₂ (SealRow.Writes h') table rows') (heq : rows.flatten = rows'.flatten) :
    ∀ row ∈ table, row.read h = row.read h' := by
  induction hrows generalizing rows' with
  | nil =>
    intro row hrow
    cases hrow
  | @cons row written table rows hrow _ ih =>
    cases hrows' with
    | @cons _ written' _ rows' hrow' hrest' =>
      obtain ⟨values, hread, rfl⟩ := hrow
      obtain ⟨values', hread', rfl⟩ := hrow'
      have hfits := SealRow.read_fits hread
      have hfits' := SealRow.read_fits hread'
      obtain ⟨hwritten, hrest⟩ := append_inj heq (by
        rw [length_map, length_map, hfits.length_eq, hfits'.length_eq])
      have hvalues := hfits.proto_inj hfits' hwritten
      intro other hother
      rcases mem_cons.mp hother with rfl | hother
      · rw [hread, hread', hvalues]
      · exact ih hrest' hrest other hother

theorem tags_of_rows (hrows : List.Forall₂ (SealRow.Writes h) table rows) :
    rows.flatten.map ProtoField.tag =
      table.flatMap fun row => replicate row.form.count row.tag := by
  induction hrows with
  | nil => rfl
  | @cons row written table rows hrow _ ih =>
    obtain ⟨values, hread, rfl⟩ := hrow
    rw [flatten_cons, map_append, flatMap_cons, ih, map_map]
    simp only [Function.comp_def, tag_proto, map_const', (SealRow.read_fits hread).length_eq]

theorem headerSealRows_extra :
    ∀ row ∈ headerSealRows, row.tag = 19 → row = ⟨19, "extraData", .bytes⟩ := by
  decide

theorem extra_of_tag {extra : Bytes}
    (htable : ∀ row ∈ table, row.tag = 19 → row = ⟨19, "extraData", .bytes⟩)
    (hrows : List.Forall₂ (SealRow.Writes h) table rows) (hextra : bytes h "extraData" = .ok extra) :
    ∀ f ∈ rows.flatten, f.tag = 19 → f = ⟨19, .bytes extra⟩ := by
  induction hrows with
  | nil =>
    intro f hf
    cases hf
  | @cons row written table rows hrow _ ih =>
    intro f hf htag
    rcases mem_append.mp hf with hf | hf
    · obtain ⟨values, hread, rfl⟩ := hrow
      obtain ⟨value, hvalue, rfl⟩ := mem_map.mp hf
      rw [tag_proto] at htag
      have honly := htable row mem_cons_self htag
      subst honly
      obtain ⟨b, hb, hread⟩ := bind_eq_ok.mp hread
      rw [hextra, ok.injEq] at hb
      cases hread
      rw [mem_singleton.mp hvalue, hb]
      rfl
    · exact ih (forall_mem_cons.mp htable).2 f hf htag

section

variable (htags : fields.map ProtoField.tag = fields'.map ProtoField.tag)
include htags

theorem eq_of_filter_eq {common : ProtoField} (hcommon : ∀ f ∈ fields, f.tag = tag → f = common)
    (hcommon' : ∀ f ∈ fields', f.tag = tag → f = common)
    (h : fields.filter (fun f => f.tag ≠ tag) = fields'.filter fun f => f.tag ≠ tag) :
    fields = fields' := by
  induction fields generalizing fields' with
  | nil =>
    cases fields' with
    | nil => rfl
    | cons => cases htags
  | cons f fields ih =>
    cases fields' with
    | nil => cases htags
    | cons f' =>
      rw [map_cons, map_cons, cons.injEq] at htags
      have hrest := ih htags.2 (forall_mem_cons.mp hcommon).2 (forall_mem_cons.mp hcommon').2
      by_cases hf : f.tag = tag
      · have hf' : f'.tag = tag := htags.1 ▸ hf
        rw [filter_cons_of_neg (by simp [hf]), filter_cons_of_neg (by simp [hf'])] at h
        rw [hcommon f mem_cons_self hf, hcommon' f' mem_cons_self hf', hrest h]
      · have hf' : ¬f'.tag = tag := htags.1 ▸ hf
        rw [filter_cons_of_pos (by simp [hf]), filter_cons_of_pos (by simp [hf']), cons.injEq] at h
        rw [h.1, hrest h.2]

theorem eq_of_eq_filter (h : fields = fields'.filter fun f => f.tag ≠ tag) : fields = fields' := by
  have hnone : ∀ f ∈ fields', f.tag ≠ tag := by
    intro f hf htag
    have hmem : tag ∈ fields.map ProtoField.tag := by
      rw [htags, ← htag]
      exact mem_map_of_mem hf
    obtain ⟨g, hg, hgtag⟩ := mem_map.mp hmem
    rw [h, mem_filter] at hg
    simp [hgtag] at hg
  rw [h]
  exact filter_eq_self.mpr fun f hf => by simpa using hnone f hf

end

/-- Two headers with a common encoding have the same value for each sealed field. -/
theorem headerSealStrings_bind {strings strings' : List Bytes} {string : Bytes}
    (hstrings : headerSealStrings h = .ok strings) (hstrings' : headerSealStrings h' = .ok strings')
    (hmem : string ∈ strings) (hmem' : string ∈ strings') :
    ∀ row ∈ headerSealRows, row.read h = row.read h' := by
  obtain ⟨fields, hfields, hstrings⟩ := bind_eq_ok.mp hstrings
  obtain ⟨extra, hextra, hstrings⟩ := bind_eq_ok.mp hstrings
  obtain ⟨fields', hfields', hstrings'⟩ := bind_eq_ok.mp hstrings'
  obtain ⟨extra', hextra', hstrings'⟩ := bind_eq_ok.mp hstrings'
  obtain ⟨rows, hrows, rfl⟩ := headerSealFields_eq_ok hfields
  obtain ⟨rows', hrows', rfl⟩ := headerSealFields_eq_ok hfields'
  have htags := (tags_of_rows hrows).trans (tags_of_rows hrows').symm
  have hcommon := extra_of_tag headerSealRows_extra hrows hextra
  have hcommon' := extra_of_tag headerSealRows_extra hrows' hextra'
  apply read_eq_of_flatten hrows hrows'
  rw [← ok.inj hstrings] at hmem
  rw [← ok.inj hstrings'] at hmem'
  rcases mem_cons.mp hmem with hwith | hwithout
  · rcases mem_cons.mp hmem' with hwith' | hwithout'
    · exact writeProto_injective (hwith.symm.trans hwith')
    · split at hwithout'
      · rw [mem_singleton.mp hwithout'] at hwith
        exact eq_of_eq_filter htags (writeProto_injective hwith.symm)
      · cases hwithout'
  · split at hwithout
    · rename_i hempty
      rw [mem_singleton] at hwithout
      rcases mem_cons.mp hmem' with hwith' | hwithout'
      · rw [hwithout] at hwith'
        exact (eq_of_eq_filter htags.symm (writeProto_injective hwith'.symm)).symm
      · split at hwithout'
        · rename_i hempty'
          rw [mem_singleton] at hwithout'
          rw [hempty] at hcommon
          rw [hempty'] at hcommon'
          exact eq_of_filter_eq htags hcommon hcommon'
            (writeProto_injective (hwithout.symm.trans hwithout'))
        · cases hwithout'
    · cases hwithout

theorem uint_eq_ok {o : Json.Object} {name : String} {n : ℕ} (h : uint o name = .ok n) :
    ∃ b, big o name = .ok b ∧ n = BigEndian.value b := by
  obtain ⟨b, hb, h⟩ := bind_eq_ok.mp h
  rw [ite_error_eq_ok] at h
  exact ⟨b, hb, (ok.inj h.2).symm⟩

/-- What the claims about a work object need of its sealed message. -/
theorem sealFields_eq_ok {w : Json.Object} (h : sealFields w kawpow = .ok fields) :
    ∃ headerHash parentHash number difficulty txHash location timestamp primeTerminus rest,
      hash w "headerHash" = .ok headerHash ∧ big w "number" = .ok number ∧
      bytes w "location" = .ok location ∧ uint w "timestamp" = .ok timestamp ∧
      big w "primeTerminusNumber" = .ok primeTerminus ∧
      fields = protoHash 1 headerHash :: protoHash 2 parentHash :: ⟨3, .bytes number⟩ ::
        ⟨4, .bytes difficulty⟩ :: protoHash 5 txHash ::
        ⟨7, .bytes (writeProto (optionalBytes 1 location))⟩ :: ⟨9, .varint timestamp⟩ ::
        ⟨10, .bytes primeTerminus⟩ :: rest := by
  simp only [sealFields, eq_ok] at h
  obtain ⟨headerHash, hheaderHash, parentHash, -, number, hnumber, difficulty, -, txHash, -,
    location, hlocation, timestamp, htimestamp, primeTerminus, hprimeTerminus, lock, -, coinbase, -,
    data, -, shares, -, h⟩ := h
  refine ⟨headerHash, parentHash, number, difficulty, txHash, location, timestamp, primeTerminus,
    ⟨11, .varint lock⟩ :: ((if kawpow = true then []
      else [⟨12, .bytes (writeProto [⟨1, .bytes coinbase⟩])⟩]) ++ (optionalBytes 13 data ++ shares)),
    hheaderHash, hnumber, hlocation, htimestamp, hprimeTerminus, ?_⟩
  rw [← h, append_assoc, append_assoc]
  rfl

theorem optionalBytes_injective {b b' : Bytes} (h : optionalBytes tag b = optionalBytes tag b') :
    b = b' := by
  unfold optionalBytes Wire.unlessEmpty at h
  split at h
  · rename_i hb
    split at h
    · rename_i hb'
      rw [hb, hb']
    · cases h
  · split at h
    · cases h
    · simpa using h

/-- Work objects with one sealed message agree on the fields that the header reports. -/
theorem sealFields_bind {w w' : Json.Object} {kawpow' : Bool} (h : sealFields w kawpow = .ok fields)
    (h' : sealFields w' kawpow' = .ok fields) :
    hash w "headerHash" = hash w' "headerHash" ∧ big w "number" = big w' "number" ∧
      bytes w "location" = bytes w' "location" ∧ uint w "timestamp" = uint w' "timestamp" ∧
      big w "primeTerminusNumber" = big w' "primeTerminusNumber" := by
  obtain ⟨headerHash, parentHash, number, difficulty, txHash, location, timestamp, primeTerminus,
    rest, hheaderHash, hnumber, hlocation, htimestamp, hprimeTerminus, hfields⟩ := sealFields_eq_ok h
  obtain ⟨headerHash', parentHash', number', difficulty', txHash', location', timestamp',
    primeTerminus', rest', hheaderHash', hnumber', hlocation', htimestamp', hprimeTerminus',
    hfields'⟩ := sealFields_eq_ok h'
  rw [hfields] at hfields'
  simp only [cons.injEq, ProtoField.mk.injEq, ProtoValue.bytes.injEq, ProtoValue.varint.injEq,
    true_and] at hfields'
  obtain ⟨hhash, -, hnum, -, -, hloc, htime, hprime, -⟩ := hfields'
  rw [hheaderHash, hheaderHash', hnumber, hnumber', hlocation, hlocation', htimestamp, htimestamp',
    hprimeTerminus, hprimeTerminus', protoHash_injective hhash, hnum, htime, hprime,
    optionalBytes_injective (writeProto_injective hloc)]
  exact ⟨rfl, rfl, rfl, rfl, rfl⟩

/-- The strings whose hash can be the block hash of a work object with this seal. -/
inductive Commits (sealed : Hash32) : Bool → Bytes → Prop where
  | direct (mixHash : Hash32) (nonce : Bytes) (hnonce : nonce.length = 8) :
      Commits sealed false (mixHash.bytes ++ sealed.bytes ++ nonce)
  | merged (fields : List ProtoField) (transaction : Bytes)
      (htransaction : fields.filter (fun f => f.tag = 5) = [⟨5, .bytes transaction⟩])
      (hcommitment : coinbaseCommitment transaction = .ok sealed.bytes) :
      Commits sealed true (writeProto fields)

theorem slice_eq_some {input part : Bytes} {length : ℕ} (h : slice input start length = some part) :
    start + length ≤ input.length ∧ part.length = length := by
  unfold slice at h
  split at h
  · rename_i hle
    cases h
    refine ⟨hle, ?_⟩
    rw [length_take, length_drop]
    omega
  · cases h

theorem compactSize_le {input : Bytes} {n next : ℕ} (h : compactSize input start = some (n, next)) :
    start + 1 ≤ next := by
  obtain ⟨first, -, h⟩ := Option.bind_eq_some_iff.mp h
  split at h
  · cases h
    exact le_rfl
  · generalize (if first = 0xfd then 2 else if first = 0xfe then 4 else 8) = width at h
    dsimp only at h
    split at h
    · cases h
    · cases h
      omega

theorem pushed_eq_some {script data : Bytes} {next : ℕ}
    (h : pushed script start = some (data, next)) :
    next = start + 1 + data.length ∧ next ≤ script.length := by
  obtain ⟨length, -, h⟩ := Option.bind_eq_some_iff.mp h
  split at h
  · cases h
  · obtain ⟨part, hpart, h⟩ := Option.bind_eq_some_iff.mp h
    obtain ⟨hle, hlength⟩ := slice_eq_some hpart
    cases h
    exact ⟨by rw [hlength], hle⟩

/-- A coinbase with a commitment is longer than a block's direct preimage. -/
theorem length_of_coinbaseCommitment {transaction commitment : Bytes}
    (h : coinbaseCommitment transaction = .ok commitment) : 88 ≤ transaction.length := by
  obtain ⟨script, hscript, h⟩ := bind_eq_ok.mp h
  obtain ⟨⟨height, next⟩, hheight, h⟩ := bind_eq_ok.mp h
  obtain ⟨⟨payload, after⟩, hpayload, h⟩ := bind_eq_ok.mp h
  rw [ite_error_eq_ok] at h
  have hlength : payload.length = 44 := by
    by_contra hne
    exact h.1 (.inr (.inl hne))
  obtain ⟨hnext, -⟩ := pushed_eq_some (okOr_eq_ok.mp hheight)
  obtain ⟨hafter, hle⟩ := pushed_eq_some (okOr_eq_ok.mp hpayload)
  obtain ⟨⟨count, start⟩, hcount, hscript⟩ := Option.bind_eq_some_iff.mp (okOr_eq_ok.mp hscript)
  obtain ⟨⟨size, start'⟩, hsize, hscript⟩ := Option.bind_eq_some_iff.mp hscript
  have hstart := compactSize_le hcount
  have hstart' := compactSize_le hsize
  obtain ⟨hend, hscript⟩ := slice_eq_some hscript
  omega

theorem length_le_writeProto {b : Bytes} (h : ⟨tag, .bytes b⟩ ∈ fields) :
    b.length ≤ (writeProto fields).length := by
  have hpart : (ProtoField.write ⟨tag, .bytes b⟩).length ≤ (writeProto fields).length := by
    rw [writeProto, length_flatMap]
    exact le_sum_of_mem (mem_map_of_mem h)
  have hwrite : b.length ≤ (ProtoField.write ⟨tag, .bytes b⟩).length := by
    simp only [ProtoField.write, length_append]
    omega
  omega

/-- One string commits one seal, in one form: the merged form is never as short as the direct one. -/
theorem Commits.bind {sealed sealed' : Hash32} {kawpow' : Bool} {string : Bytes}
    (h : Commits sealed kawpow string) (h' : Commits sealed' kawpow' string) :
    kawpow = kawpow' ∧ sealed = sealed' := by
  have hlong : ∀ {fields : List ProtoField} {transaction commitment : Bytes},
      fields.filter (fun f => f.tag = 5) = [⟨5, .bytes transaction⟩] →
      coinbaseCommitment transaction = .ok commitment → 88 ≤ (writeProto fields).length := by
    intro fields transaction commitment hfilter hcommitment
    have hmem : (⟨5, .bytes transaction⟩ : ProtoField) ∈ fields :=
      mem_of_mem_filter (hfilter ▸ mem_cons_self)
    exact le_trans (length_of_coinbaseCommitment hcommitment) (length_le_writeProto hmem)
  generalize hstring : string = string' at h'
  cases h with
  | direct mixHash nonce hnonce =>
    have hlength : (mixHash.bytes ++ sealed.bytes ++ nonce).length = 72 := by
      rw [length_append, length_append, mixHash.size, sealed.size, hnonce]
    cases h' with
    | direct mixHash' =>
      rw [append_assoc, append_assoc] at hstring
      obtain ⟨-, hrest⟩ := append_inj hstring (by rw [mixHash.size, mixHash'.size])
      obtain ⟨hsealed, -⟩ := append_inj hrest (by rw [sealed.size, sealed'.size])
      exact ⟨rfl, Hash32.ext hsealed⟩
    | merged fields transaction htransaction hcommitment =>
      have := hlong htransaction hcommitment
      rw [← hstring] at this
      omega
  | merged fields transaction htransaction hcommitment =>
    cases h' with
    | direct mixHash' nonce' hnonce' =>
      have := hlong htransaction hcommitment
      rw [hstring, length_append, length_append, mixHash'.size, sealed'.size, hnonce'] at this
      omega
    | merged fields' transaction' htransaction' hcommitment' =>
      have hfields := writeProto_injective hstring
      rw [hfields, htransaction', cons.injEq, ProtoField.mk.injEq,
        ProtoValue.bytes.injEq] at htransaction
      rw [htransaction.1.2, hcommitment, ok.injEq] at hcommitment'
      exact ⟨rfl, Hash32.ext hcommitment'⟩

section Blake3

variable {blake3 : Bytes → Hash32}

def stringsOf (x : Except HeaderHashError (List Bytes)) : List Bytes :=
  match x with
  | .ok strings => strings
  | .error _ => []

def workStrings (blake3 : Bytes → Hash32) (w : Json.Object) (kawpow : Bool) :
    Except HeaderHashError (List Bytes) := do
  let fields ← sealFields w kawpow
  let string ← sealString blake3 w kawpow
  .ok [writeProto fields, string]

def blockStrings (blake3 : Bytes → Hash32) (w : Json.Object) (kawpow : Bool) :
    Except HeaderHashError (List Bytes) :=
  if kawpow = true then do
    let auxpow ← field w "auxpow"
    let a ← okOr auxpow.asObject (.malformed "auxpow")
    let powId ← uint a "powId"
    let transaction ← bytes a "transaction"
    let fields ← auxFields a powId transaction
    .ok [writeProto fields]
  else do
    let string ← sealString blake3 w kawpow
    let mixHash ← hash w "mixHash"
    let nonce ← fixed 8 w "nonce"
    .ok [mixHash.bytes ++ (blake3 string).bytes ++ nonce]

/-- Every string that the verification of a header hashes. -/
def hashedStrings (blake3 : Bytes → Hash32) (value : Json) : List Bytes :=
  match headerParts value with
  | .error _ => []
  | .ok (work, header) =>
    stringsOf (headerSealStrings header) ++
      match uint work "primeTerminusNumber" with
      | .error _ => []
      | .ok primeTerminusNumber =>
        let kawpow := decide (kawpowForkPrimeTerminus ≤ primeTerminusNumber)
        stringsOf (workStrings blake3 work kawpow) ++ stringsOf (blockStrings blake3 work kawpow)

theorem auxFields_filter {a : Json.Object} {powId : ℕ} {transaction : Bytes}
    {fields : List ProtoField} (h : auxFields a powId transaction = .ok fields) :
    fields.filter (fun f => f.tag = 5) = [⟨5, .bytes transaction⟩] := by
  simp only [auxFields, eq_ok] at h
  obtain ⟨header, -, signature, -, _, -, branches, -, auxpow2, -, rfl⟩ := h
  have hbranches : (branches.map fun b => (⟨4, .bytes b⟩ : ProtoField)).filter
      (fun f => f.tag = 5) = [] := by
    simp
  rw [filter_append, filter_append, hbranches]
  rfl

theorem check_eq_ok_true {recomputed reported : Hash32} (h : check recomputed reported = .ok true) :
    recomputed = reported := by
  unfold check at h
  split at h
  · assumption
  · cases h

/-- A verified block hash is the hash of a string that commits the seal. -/
theorem blockHashVerified_commits {w : Json.Object} {kawpow : Bool} {sealed : Option Hash32}
    {reported : Hash32} (hseal : sealHash blake3 w kawpow = .ok sealed)
    (h : blockHashVerified blake3 w kawpow sealed reported = .ok true) :
    ∃ string block, sealString blake3 w kawpow = .ok string ∧
      block ∈ stringsOf (blockStrings blake3 w kawpow) ∧ blake3 block = reported ∧
      Commits (blake3 string) kawpow block := by
  unfold sealHash at hseal
  split at hseal
  · cases hseal
    cases h
  · obtain ⟨string, hstring, hseal⟩ := bind_eq_ok.mp hseal
    cases hseal
    refine ⟨string, ?_⟩
    unfold blockStrings
    cases kawpow with
    | false =>
      obtain ⟨mixHash, hmixHash, h⟩ := bind_eq_ok.mp h
      obtain ⟨nonce, hnonce, h⟩ := bind_eq_ok.mp h
      have hsize : nonce.length = 8 := by
        obtain ⟨b, -, hb⟩ := bind_eq_ok.mp hnonce
        split at hb
        · rename_i hlength
          cases hb
          exact hlength
        · cases hb
      refine ⟨mixHash.bytes ++ (blake3 string).bytes ++ nonce, hstring, ?_, check_eq_ok_true h,
        .direct mixHash nonce hsize⟩
      rw [if_neg Bool.false_ne_true, hstring, hmixHash, hnonce]
      exact mem_cons_self
    | true =>
      unfold blockHashVerified at h
      cases hauxpow : Json.get w "auxpow" with
      | none =>
        rw [hauxpow] at h
        cases h
      | some =>
        rw [hauxpow] at h
        obtain ⟨a, ha, h⟩ := bind_eq_ok.mp h
        obtain ⟨-, -, h⟩ := bind_eq_ok.mp h
        obtain ⟨powId, hpowId, h⟩ := bind_eq_ok.mp h
        split at h
        · cases h
        · obtain ⟨transaction, htransaction, h⟩ := bind_eq_ok.mp h
          obtain ⟨commitment, hcommitment, h⟩ := bind_eq_ok.mp h
          rw [ite_error_eq_ok, not_not] at h
          obtain ⟨hsame, h⟩ := h
          obtain ⟨fields, hfields, h⟩ := bind_eq_ok.mp h
          refine ⟨writeProto fields, hstring, ?_, check_eq_ok_true h,
            .merged fields transaction (auxFields_filter hfields) (hsame ▸ hcommitment)⟩
          rw [if_pos rfl, field, hauxpow, okOr_some, ok_bind, ha, ok_bind, hpowId, ok_bind,
            htransaction, ok_bind, hfields]
          exact mem_cons_self

theorem sealString_bind {w w' : Json.Object} {kawpow : Bool} {string string' : Bytes}
    (hstring : sealString blake3 w kawpow = .ok string)
    (hstring' : sealString blake3 w' kawpow = .ok string')
    (hinj : Set.InjOn blake3 {b | b ∈ stringsOf (workStrings blake3 w kawpow) ∨
      b ∈ stringsOf (workStrings blake3 w' kawpow)})
    (h : blake3 string = blake3 string') :
    ∃ fields, sealFields w kawpow = .ok fields ∧ sealFields w' kawpow = .ok fields := by
  have hwork : ∀ {w string}, sealString blake3 w kawpow = .ok string →
      ∃ fields, sealFields w kawpow = .ok fields ∧
        stringsOf (workStrings blake3 w kawpow) = [writeProto fields, string] ∧
        if kawpow = true then ∃ coinbase, string = (blake3 (writeProto fields)).bytes ++ coinbase
        else string = writeProto fields := by
    intro w string hstring
    have hsealed := hstring
    obtain ⟨fields, hfields, hsealed⟩ := bind_eq_ok.mp hsealed
    refine ⟨fields, hfields, ?_, ?_⟩
    · rw [workStrings, hfields, ok_bind, hstring]
      rfl
    · cases kawpow with
      | false => exact (ok.inj hsealed).symm
      | true =>
        obtain ⟨coinbase, -, hsealed⟩ := bind_eq_ok.mp hsealed
        exact ⟨coinbase, (ok.inj hsealed).symm⟩
  obtain ⟨fields, hfields, hstrings, hform⟩ := hwork hstring
  obtain ⟨fields', hfields', hstrings', hform'⟩ := hwork hstring'
  rw [hstrings, hstrings'] at hinj
  have hsame : string = string' := hinj (.inl (by simp)) (.inr (by simp)) h
  have hmessage : writeProto fields = writeProto fields' := by
    cases kawpow with
    | false => exact (hform.symm.trans hsame).trans hform'
    | true =>
      obtain ⟨coinbase, rfl⟩ := hform
      obtain ⟨coinbase', rfl⟩ := hform'
      obtain ⟨hhash, -⟩ := append_inj hsame (by rw [Hash32.size, Hash32.size])
      exact hinj (.inl (by simp)) (.inr (by simp)) (Hash32.ext hhash)
  rw [← writeProto_injective hmessage] at hfields'
  exact ⟨fields, hfields, hfields'⟩

/-- What a verification has established. -/
structure Established (blake3 : Bytes → Hash32) (work header : Json.Object) (v : VerifiedHeader) :
    Prop where
  reported : hash work "headerHash" = .ok v.headerHash
  recomputed : ∃ strings, headerSealStrings header = .ok strings ∧
    ∃ string ∈ strings, blake3 string = v.headerHash
  primeTerminus : uint work "primeTerminusNumber" = .ok v.primeTerminusNumber
  sealed : sealHash blake3 work (decide (kawpowForkPrimeTerminus ≤ v.primeTerminusNumber)) =
    .ok v.sealHash
  block : blockHashVerified blake3 work
    (decide (kawpowForkPrimeTerminus ≤ v.primeTerminusNumber)) v.sealHash v.hash =
      .ok v.hashVerified
  location : ∃ location, bytes work "location" = .ok location ∧ locationZone location = .ok v.zone
  number : uint work "number" = .ok v.number
  timestamp : uint work "timestamp" = .ok v.timestamp
  evmRoot : hash header "evmRoot" = .ok v.evmRoot
  utxoRoot : hash header "utxoRoot" = .ok v.utxoRoot
  etxSetRoot : hash header "etxSetRoot" = .ok v.etxSetRoot

theorem verifyHeaderHash_eq_ok {value : Json} {v : VerifiedHeader}
    (h : verifyHeaderHash blake3 value = .ok v) :
    ∃ work header, headerParts value = .ok (work, header) ∧ Established blake3 work header v := by
  simp only [verifyHeaderHash, eq_ok] at h
  obtain ⟨⟨work, header⟩, hparts, -, -, -, -, reported, hreported, headerHash, hheaderHash,
    primeTerminus, hprimeTerminus, reportedHash, hreportedHash, sealed, hsealed, verified, hverified,
    location, hlocation, zone, hzone, number, hnumber, timestamp, htimestamp, evmRoot, hevmRoot,
    utxoRoot, hutxoRoot, etxSetRoot, hetxSetRoot, rfl⟩ := h
  obtain ⟨strings, hstrings, hfind⟩ := bind_eq_ok.mp hheaderHash
  have hfind := okOr_eq_ok.mp hfind
  have hsame : headerHash = reported := by simpa using find?_some hfind
  obtain ⟨string, hstring, hhash⟩ := mem_map.mp (mem_of_find?_eq_some hfind)
  exact ⟨work, header, hparts, hsame ▸ hreported, ⟨strings, hstrings, string, hstring, hhash⟩,
    hprimeTerminus, hsealed, hverified, ⟨location, hlocation, hzone⟩, hnumber, htimestamp, hevmRoot,
    hutxoRoot, hetxSetRoot⟩

theorem root_of_read {tag : ℕ} {name : String} {h h' : Json.Object} {root root' : Hash32}
    (hread : SealRow.read ⟨tag, name, .hash⟩ h = SealRow.read ⟨tag, name, .hash⟩ h')
    (hroot : hash h name = .ok root) (hroot' : hash h' name = .ok root') : root = root' := by
  unfold SealRow.read at hread
  rw [hroot, hroot', ok_bind, ok_bind] at hread
  simpa using hread

theorem uint_of_big {o o' : Json.Object} {name : String} {n n' : ℕ}
    (hbig : big o name = big o' name) (hn : uint o name = .ok n) (hn' : uint o' name = .ok n') :
    n = n' := by
  obtain ⟨b, hb, rfl⟩ := uint_eq_ok hn
  obtain ⟨b', hb', rfl⟩ := uint_eq_ok hn'
  rw [hbig, hb', ok.injEq] at hb
  rw [hb]

/-- Header hashes bind: where BLAKE3 does not collide on the strings that two verifications hash,
equal header hashes come from headers that read alike in every sealed field, so with the same roots;
and equal block hashes that were verified come from work objects with the same header hash, number,
zone, timestamp and prime terminus, whatever form each is in. -/
theorem header_hashes_bind (blake3 : Bytes → Hash32) (value value' : Json)
    (v v' : VerifiedHeader) (hverify : verifyHeaderHash blake3 value = .ok v)
    (hverify' : verifyHeaderHash blake3 value' = .ok v')
    (hinj : Set.InjOn blake3 {b | b ∈ hashedStrings blake3 value ∨ b ∈ hashedStrings blake3 value'}) :
    (v.headerHash = v'.headerHash →
      v.evmRoot = v'.evmRoot ∧ v.utxoRoot = v'.utxoRoot ∧ v.etxSetRoot = v'.etxSetRoot ∧
      ∀ work header work' header', headerParts value = .ok (work, header) →
        headerParts value' = .ok (work', header') →
          ∀ row ∈ headerSealRows, row.read header = row.read header') ∧
    (v.hashVerified = true → v'.hashVerified = true → v.hash = v'.hash →
      v.headerHash = v'.headerHash ∧ v.number = v'.number ∧ v.zone = v'.zone ∧
      v.timestamp = v'.timestamp ∧ v.primeTerminusNumber = v'.primeTerminusNumber) := by
  obtain ⟨work, header, hparts, he⟩ := verifyHeaderHash_eq_ok hverify
  obtain ⟨work', header', hparts', he'⟩ := verifyHeaderHash_eq_ok hverify'
  unfold hashedStrings at hinj
  rw [hparts, hparts'] at hinj
  dsimp only at hinj
  rw [he.primeTerminus, he'.primeTerminus] at hinj
  dsimp only at hinj
  constructor
  · intro hhash
    obtain ⟨strings, hstrings, string, hstring, hstringHash⟩ := he.recomputed
    obtain ⟨strings', hstrings', string', hstring', hstringHash'⟩ := he'.recomputed
    have hsame : string = string' := by
      apply hinj _ _ (hstringHash.trans (hhash.trans hstringHash'.symm))
      · rw [hstrings]
        exact .inl (mem_append_left _ hstring)
      · rw [hstrings']
        exact .inr (mem_append_left _ hstring')
    have hread := headerSealStrings_bind hstrings hstrings' hstring (hsame ▸ hstring')
    refine ⟨root_of_read (hread ⟨3, "evmRoot", .hash⟩ (by decide)) he.evmRoot he'.evmRoot,
      root_of_read (hread ⟨22, "utxoRoot", .hash⟩ (by decide)) he.utxoRoot he'.utxoRoot,
      root_of_read (hread ⟨23, "etxSetRoot", .hash⟩ (by decide)) he.etxSetRoot he'.etxSetRoot, ?_⟩
    intro work₁ header₁ work₂ header₂ h₁ h₂
    rw [hparts, ok.injEq, Prod.mk.injEq] at h₁
    rw [hparts', ok.injEq, Prod.mk.injEq] at h₂
    rw [← h₁.2, ← h₂.2]
    exact hread
  · intro hverified hverified' hhash
    have hblock := he.block
    have hblock' := he'.block
    rw [hverified] at hblock
    rw [hverified'] at hblock'
    obtain ⟨string, block, hstring, hmem, hblockHash, hcommits⟩ :=
      blockHashVerified_commits he.sealed hblock
    obtain ⟨string', block', hstring', hmem', hblockHash', hcommits'⟩ :=
      blockHashVerified_commits he'.sealed hblock'
    have hsame : block = block' := by
      apply hinj _ _ (hblockHash.trans (hhash.trans hblockHash'.symm))
      · exact .inl (mem_append_right _ (mem_append_right _ hmem))
      · exact .inr (mem_append_right _ (mem_append_right _ hmem'))
    subst hsame
    obtain ⟨hform, hseal⟩ := hcommits.bind hcommits'
    rw [← hform] at hstring' hinj
    obtain ⟨fields, hfields, hfields'⟩ := sealString_bind hstring hstring'
      (hinj.mono fun b hb => hb.imp (fun hb => mem_append_right _ (mem_append_left _ hb))
        fun hb => mem_append_right _ (mem_append_left _ hb)) hseal
    obtain ⟨hheaderHash, hnumber, hlocation, htimestamp, hprimeTerminus⟩ :=
      sealFields_bind hfields hfields'
    refine ⟨?_, uint_of_big hnumber he.number he'.number, ?_, ?_,
      uint_of_big hprimeTerminus he.primeTerminus he'.primeTerminus⟩
    · rw [he.reported, he'.reported, ok.injEq] at hheaderHash
      exact hheaderHash
    · obtain ⟨location, hbytes, hzone⟩ := he.location
      obtain ⟨location', hbytes', hzone'⟩ := he'.location
      rw [hbytes, hbytes', ok.injEq] at hlocation
      rw [hlocation, hzone', ok.injEq] at hzone
      exact hzone.symm
    · rw [he.timestamp, he'.timestamp, ok.injEq] at htimestamp
      exact htimestamp

end Blake3

/-! ## The genesis header

As a node reports it, with the texts for zero and for the size left open: neither enters a seal. -/

def emptyRootText : String :=
  "0x56e81f171bcc55a6ff8345e692c0f86e5b48e01b996cadc001622fb5e363b421"

def zeroHashText : String :=
  "0x0000000000000000000000000000000000000000000000000000000000000000"

def genesisWork (zero : String) : Json.Object :=
  [("data", .string "0x"), ("difficulty", .string "0x15d3ef79800"),
    ("hash", .string "0xac81c28f1a72591b87b5f16c9793cdc0e87c45c6d426d1a364c3b8f6386b5b8b"),
    ("headerHash", .string "0x146cd77806a6982dea165c1e7ea02c5cdf4d6a99598b23f29c2666b945d16b3e"),
    ("location", .string "0x"), ("lock", .string zero), ("mixHash", .string zeroHashText),
    ("nonce", .string "0x0236214665329462"), ("number", .string zero),
    ("parentHash", .string zeroHashText),
    ("primaryCoinbase", .string "0x0000000000000000000000000000000000000000"),
    ("primeTerminusNumber", .string zero), ("timestamp", .string zero),
    ("txHash", .string emptyRootText)]

def genesisHeader (zero size : String) : Json :=
  .object
    [("avgTxFees", .string zero), ("baseFeePerGas", .string "0x1"),
      ("conversionFlowAmount", .string "0x21e19e0c9bab2400000"), ("efficiencyScore", .string zero),
      ("etxEligibleSlices", .string zeroHashText), ("etxRollupRoot", .string emptyRootText),
      ("etxSetRoot", .string emptyRootText), ("evmRoot", .string emptyRootText),
      ("exchangeRate", .string "0x3116d1ae5368e00"), ("expansionNumber", .string zero),
      ("extraData", .string ("0x81564673705261963422a1f3f565b62c83fcc0e61dfd219409fb0652657093" ++
        "4a5d94b5db5afdad13f1da")),
      ("gasLimit", .string "0xb71b00"), ("gasUsed", .string zero),
      ("interlinkRootHash", .string emptyRootText), ("kQuaiDiscount", .string "0x64"),
      ("manifestHash",
        .array [.string emptyRootText, .string emptyRootText, .string emptyRootText]),
      ("minerDifficulty", .string "0x15d3ef79800"), ("number", .array [.string zero, .string zero]),
      ("outboundEtxsRoot", .string emptyRootText),
      ("parentDeltaEntropy", .array [.string zero, .string zero, .string zero]),
      ("parentEntropy", .array [.string zero, .string zero, .string zero]),
      ("parentHash", .array [.string zeroHashText, .string zeroHashText]),
      ("parentUncledDeltaEntropy", .array [.string zero, .string zero, .string zero]),
      ("primeStateRoot", .string emptyRootText), ("primeTerminusHash", .string emptyRootText),
      ("quaiStateSize", .string zero), ("receiptsRoot", .string emptyRootText),
      ("regionStateRoot", .string emptyRootText), ("size", .string size),
      ("stateLimit", .string "0x4c4b40"), ("stateUsed", .string zero),
      ("thresholdCount", .string zero), ("totalFees", .string zero),
      ("transactionsRoot", .string emptyRootText),
      ("uncleHash",
        .string "0x1dcc4de8dec75d7aab85b567b6ccd41ad312451b948a7413f0a142fd40d49347"),
      ("uncledEntropy", .string zero),
      ("utxoRoot", .string "0x544eb3142c000f0ad2c76ac41f4222abbababed830eeafee4b6dc56b52d5cac0"),
      ("woHeader", .object (genesisWork zero))]

def genesisBlake3 (b : Bytes) : Hash32 :=
  if b.length = 800 then
    Hash32.ofNat 0x146cd77806a6982dea165c1e7ea02c5cdf4d6a99598b23f29c2666b945d16b3e
  else if b.length = 150 then
    Hash32.ofNat 0xa12a41737452b72ca6c787b978cd776a651ca4ecb70050107cbfd68d31303c1a
  else Hash32.ofNat 0xac81c28f1a72591b87b5f16c9793cdc0e87c45c6d426d1a364c3b8f6386b5b8b

/-- The genesis in two spellings is one header. -/
theorem header_hashes_bind_genesis :
    ∃ v v', verifyHeaderHash genesisBlake3 (genesisHeader "0x0" "0x302") = .ok v ∧
      verifyHeaderHash genesisBlake3 (genesisHeader "0x000" "0x1") = .ok v' ∧
      v.hashVerified = true ∧ v.evmRoot = v'.evmRoot ∧ v.headerHash = v'.headerHash ∧
      v.number = v'.number ∧ v.zone = v'.zone := by
  have hreport : (verifyHeaderHash genesisBlake3 (genesisHeader "0x0" "0x302")).map
      (fun v => (v.hash, v.hashVerified)) = .ok (genesisBlake3 [], true) := by
    decide +kernel
  have hreport' : (verifyHeaderHash genesisBlake3 (genesisHeader "0x000" "0x1")).map
      (fun v => (v.hash, v.hashVerified)) = .ok (genesisBlake3 [], true) := by
    decide +kernel
  have hsame : hashedStrings genesisBlake3 (genesisHeader "0x000" "0x1") =
      hashedStrings genesisBlake3 (genesisHeader "0x0" "0x302") := by
    decide +kernel
  have hinj : ∀ a ∈ hashedStrings genesisBlake3 (genesisHeader "0x0" "0x302"),
      ∀ b ∈ hashedStrings genesisBlake3 (genesisHeader "0x0" "0x302"),
        genesisBlake3 a = genesisBlake3 b → a = b := by
    decide +kernel
  obtain ⟨v, hv, hfacts⟩ := map_eq_ok.mp hreport
  obtain ⟨v', hv', hfacts'⟩ := map_eq_ok.mp hreport'
  obtain ⟨hhash, hverified⟩ := Prod.mk.inj hfacts
  obtain ⟨hhash', hverified'⟩ := Prod.mk.inj hfacts'
  obtain ⟨hroots, hwork⟩ := header_hashes_bind genesisBlake3 _ _ v v' hv hv' (by
    intro a ha b hb
    exact hinj a (or_self_iff.mp ha) b (or_self_iff.mp hb))
  obtain ⟨hheader, hnumber, hzone, -⟩ := hwork hverified hverified' (hhash.trans hhash'.symm)
  exact ⟨v, v', hv, hv', hverified, (hroots hheader).1, hheader, hnumber, hzone⟩

end QuaiSdk.Provider
