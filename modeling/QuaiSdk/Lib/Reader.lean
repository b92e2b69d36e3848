import QuaiSdk.Lib.BigEndian
import QuaiSdk.Lib.Registry
import QuaiSdk.Lib.Result

/-!
# Byte readers and their encodings

A reader takes a front of its input.  It reads an encoding when it accepts exactly the encodings of
the values in its domain, each followed by anything: then no accepted front continues another one.
-/

def Reader (ε : Type*) (α : Type*) := List UInt8 → Except ε (α × List UInt8)

namespace Reader

open Result Registry List

variable {ε : Type} {α β : Type}

instance : Monad (Reader ε) where
  pure a := fun b => .ok (a, b)
  bind r f := fun b =>
    match r b with
    | .ok (a, rest) => f a rest
    | .error e => .error e

def fail (e : ε) : Reader ε α := fun _ => .error e

def lift (x : Except ε α) : Reader ε α := fun b => x.map fun a => (a, b)

/-- `split_at_checked`. -/
def take (e : ε) (n : ℕ) : Reader ε (List UInt8) := fun b =>
  if n ≤ b.length then .ok (b.take n, b.drop n) else .error e

def guardInput (bad : List UInt8 → Prop) [DecidablePred bad] (e : ε) (r : Reader ε α) : Reader ε α :=
  fun b => if bad b then .error e else r b

def number (e : ε) (width : ℕ) : Reader ε ℕ := do
  let bytes ← take e width
  pure (BigEndian.value bytes)

def repeated (r : Reader ε α) : ℕ → Reader ε (List α)
  | 0 => pure []
  | n + 1 => do
    let a ← r
    let rest ← repeated r n
    pure (a :: rest)

def optional (flag : Reader ε Bool) (r : Reader ε α) : Reader ε (Option α) := do
  let present ← flag
  if present = true then do
    let a ← r
    pure (some a)
  else pure none

/-- Records under ascending keys, added one by one; each read knows the last key. -/
def registered {K : Type} [LinearOrder K] {key : α → K} (r : Option K → Reader ε α)
    (add : α → Registry key → Except ε (Registry key)) :
    ℕ → Option K → Registry key → Reader ε (Registry key)
  | 0, _, registry => pure registry
  | n + 1, previous, registry => do
    let a ← r previous
    let registry ← lift (add a registry)
    registered r add n (some (key a)) registry

/-- Exactly the encodings of the values in the domain. -/
structure Reads (r : Reader ε α) (domain : α → Prop) (encode : α → List UInt8) : Prop where
  read : ∀ a rest, domain a → r (encode a ++ rest) = .ok (a, rest)
  exact_front : ∀ b a rest, r b = .ok (a, rest) → domain a ∧ b = encode a ++ rest

theorem bind_eq_ok {r : Reader ε α} {f : α → Reader ε β} {b : List UInt8} {x : β × List UInt8} :
    (r >>= f) b = .ok x ↔ ∃ a rest, r b = .ok (a, rest) ∧ f a rest = .ok x := by
  change (match r b with
    | .ok (a, rest) => f a rest
    | .error e => .error e) = _ ↔ _
  rcases r b with e | ⟨a, rest⟩ <;> simp

namespace Reads

variable {r : Reader ε α} {domain : α → Prop} {encode : α → List UInt8}

theorem pure (c : α) : Reads (pure c : Reader ε α) (fun a => a = c) fun _ => [] where
  read := by
    rintro a rest rfl
    rfl
  exact_front := by
    intro b a rest h
    cases h
    exact ⟨rfl, rfl⟩

theorem take (e : ε) (n : ℕ) : Reads (Reader.take e n) (fun b => b.length = n) fun b => b where
  read := by
    rintro b rest rfl
    rw [Reader.take, if_pos (by simp), take_left, drop_left]
  exact_front := by
    intro b a rest h
    unfold Reader.take at h
    split at h
    · rename_i hle
      cases h
      exact ⟨length_take_of_le hle, (take_append_drop n b).symm⟩
    · cases h

theorem lift (x : Except ε α) : Reads (Reader.lift x) (fun a => x = .ok a) fun _ => [] where
  read := by
    rintro a rest rfl
    rfl
  exact_front := by
    intro b a rest h
    simp only [Reader.lift, map_eq_ok, Prod.mk.injEq] at h
    obtain ⟨a', hx, rfl, rfl⟩ := h
    exact ⟨hx, rfl⟩

theorem bind {f : α → Reader ε β} {domain' : α → β → Prop} {encode' : α → β → List UInt8}
    (part : β → α) (hr : Reads r domain encode)
    (hf : ∀ a, domain a → Reads (f a) (domain' a) (encode' a))
    (hpart : ∀ a b, domain a → domain' a b → part b = a) :
    Reads (r >>= f) (fun b => domain (part b) ∧ domain' (part b) b)
      fun b => encode (part b) ++ encode' (part b) b where
  read := by
    rintro b rest ⟨hfirst, hsecond⟩
    rw [bind_eq_ok]
    refine ⟨part b, encode' (part b) b ++ rest, ?_, (hf _ hfirst).read b rest hsecond⟩
    rw [append_assoc]
    exact hr.read _ _ hfirst
  exact_front := by
    intro input b rest h
    obtain ⟨a, middle, hfirst, hsecond⟩ := bind_eq_ok.mp h
    obtain ⟨ha, rfl⟩ := hr.exact_front _ _ _ hfirst
    obtain ⟨hb, rfl⟩ := (hf a ha).exact_front _ _ _ hsecond
    rw [hpart a b ha hb]
    exact ⟨⟨ha, hb⟩, (append_assoc _ _ _).symm⟩

theorem congr {domain' : α → Prop} {encode' : α → List UInt8} (h : Reads r domain encode)
    (hdomain : ∀ a, domain a ↔ domain' a) (hencode : ∀ a, domain a → encode a = encode' a) :
    Reads r domain' encode' where
  read := by
    intro a rest ha
    have hdom := (hdomain a).mpr ha
    rw [← hencode a hdom]
    exact h.read a rest hdom
  exact_front := by
    intro b a rest hread
    obtain ⟨ha, hb⟩ := h.exact_front b a rest hread
    rw [← hencode a ha]
    exact ⟨(hdomain a).mp ha, hb⟩

theorem guard {bad : Prop} [Decidable bad] {e : ε} (h : ¬bad → Reads r domain encode) :
    Reads (if bad then fail e else r) (fun a => ¬bad ∧ domain a) encode where
  read := by
    rintro a rest ⟨hok, ha⟩
    rw [if_neg hok]
    exact (h hok).read a rest ha
  exact_front := by
    intro b a rest hread
    by_cases hbad : bad
    · rw [if_pos hbad] at hread
      cases hread
    · rw [if_neg hbad] at hread
      obtain ⟨ha, hb⟩ := (h hbad).exact_front b a rest hread
      exact ⟨⟨hbad, ha⟩, hb⟩

theorem expect {tag : List UInt8} {n : ℕ} {e e' : ε} (hlength : tag.length = n)
    (h : Reads r domain encode) :
    Reads (Reader.take e n >>= fun found => if found ≠ tag then fail e' else r) domain
      fun a => tag ++ encode a := by
  refine (bind (fun _ => tag) (take e n) (fun found _ => guard fun _ => h) ?_).congr ?_ fun a _ => rfl
  · rintro found a - ⟨hsame, -⟩
    exact (not_not.mp hsame).symm
  · intro a
    simp only [hlength, ne_eq, not_true_eq_false, not_false_eq_true, true_and]

theorem guardInput {bad : List UInt8 → Prop} [DecidablePred bad] {e : ε} (h : Reads r domain encode)
    (hok : ∀ a rest, domain a → ¬bad (encode a ++ rest)) :
    Reads (Reader.guardInput bad e r) domain encode where
  read := by
    intro a rest ha
    rw [Reader.guardInput, if_neg (hok a rest ha)]
    exact h.read a rest ha
  exact_front := by
    intro b a rest hread
    rw [Reader.guardInput] at hread
    split at hread
    · cases hread
    · exact h.exact_front b a rest hread

theorem map {f : α → β} (part : β → α) (h : Reads r domain encode)
    (hpart : ∀ a, domain a → part (f a) = a) :
    Reads (r >>= fun a => Pure.pure (f a)) (fun b => domain (part b) ∧ f (part b) = b)
      fun b => encode (part b) := by
  refine (bind part h (fun a _ => pure (f a)) ?_).congr ?_ ?_
  · rintro a b ha rfl
    exact hpart a ha
  · intro b
    exact and_congr_right fun _ => eq_comm
  · intro b _
    exact append_nil _

theorem parse {p : α → Except ε β} (part : β → α) (h : Reads r domain encode)
    (hpart : ∀ a b, p a = .ok b → part b = a) :
    Reads (r >>= fun a => Reader.lift (p a)) (fun b => domain (part b) ∧ p (part b) = .ok b)
      fun b => encode (part b) :=
  (bind part h (fun a _ => lift (p a)) fun a b _ => hpart a b).congr (fun _ => .rfl)
    fun _ _ => append_nil _

theorem number (e : ε) (width : ℕ) :
    Reads (Reader.number e width) (fun n => n < 256 ^ width) (BigEndian.toBytes width) := by
  refine (map (BigEndian.toBytes width) (take e width) ?_).congr ?_ fun n _ => rfl
  · rintro b hb
    rw [← hb, BigEndian.toBytes_value]
  · intro n
    rw [BigEndian.length_toBytes, BigEndian.value_toBytes]
    constructor
    · rintro ⟨-, hn⟩
      rw [← hn]
      exact Nat.mod_lt _ (Nat.pow_pos (by decide))
    · intro hn
      exact ⟨rfl, Nat.mod_eq_of_lt hn⟩

/-- A fixed-width number as a value of its type. -/
theorem numberOf {width : ℕ} {e : ε} (toNat : α → ℕ) (ofNat : ℕ → α)
    (hto : ∀ n < 256 ^ width, toNat (ofNat n) = n)
    (hof : ∀ a, toNat a < 256 ^ width ∧ ofNat (toNat a) = a) :
    Reads (Reader.number e width >>= fun n => Pure.pure (ofNat n)) (fun _ => True)
      fun a => BigEndian.toBytes width (toNat a) :=
  (map toNat (number e width) hto).congr (fun a => iff_of_true (hof a) trivial) fun _ _ => rfl

theorem counted {size : α → ℕ} {limit width : ℕ} {e e' : ε} {f : ℕ → Reader ε α}
    (hlimit : limit < 256 ^ width)
    (hf : ∀ n ≤ limit, Reads (f n) (fun a => size a = n ∧ domain a) encode) :
    Reads (Reader.number e width >>= fun n => if limit < n then fail e' else f n)
      (fun a => size a ≤ limit ∧ domain a) fun a => BigEndian.toBytes width (size a) ++ encode a := by
  refine (bind size (number e width) (fun n _ => guard fun hn => hf n (not_lt.mp hn)) ?_).congr ?_
    fun _ _ => rfl
  · rintro n a - ⟨-, hsize, -⟩
    exact hsize
  · intro a
    constructor
    · rintro ⟨-, hle, -, ha⟩
      exact ⟨not_lt.mp hle, ha⟩
    · rintro ⟨hle, ha⟩
      exact ⟨lt_of_le_of_lt hle hlimit, not_lt.mpr hle, rfl, ha⟩

theorem repeated (h : Reads r domain encode) (n : ℕ) :
    Reads (Reader.repeated r n) (fun l => l.length = n ∧ ∀ a ∈ l, domain a) (flatMap encode) where
  read := by
    induction n with
    | zero =>
      rintro l rest ⟨hlength, -⟩
      cases length_eq_zero_iff.mp hlength
      rfl
    | succ n ih =>
      rintro l rest ⟨hlength, hall⟩
      cases l with
      | nil => cases hlength
      | cons a l =>
        have hl := ih l rest ⟨Nat.succ.inj hlength, (forall_mem_cons.mp hall).2⟩
        rw [flatMap_cons, append_assoc, Reader.repeated, bind_eq_ok]
        refine ⟨a, _, h.read a _ (hall a mem_cons_self), ?_⟩
        rw [bind_eq_ok]
        exact ⟨l, rest, hl, rfl⟩
  exact_front := by
    induction n with
    | zero =>
      intro b l rest hread
      cases hread
      exact ⟨⟨rfl, by simp⟩, rfl⟩
    | succ n ih =>
      intro b l rest hread
      rw [Reader.repeated, bind_eq_ok] at hread
      obtain ⟨a, middle, hfirst, hread⟩ := hread
      obtain ⟨l', rest', hrest, hread⟩ := bind_eq_ok.mp hread
      cases hread
      obtain ⟨ha, rfl⟩ := h.exact_front _ _ _ hfirst
      obtain ⟨⟨hlength, hall⟩, rfl⟩ := ih _ _ _ hrest
      refine ⟨⟨congrArg Nat.succ hlength, ?_⟩, ?_⟩
      · exact forall_mem_cons.mpr ⟨ha, hall⟩
      · rw [flatMap_cons, append_assoc]

theorem optional {flag : Reader ε Bool} {mark : Bool → List UInt8}
    (hflag : Reads flag (fun _ => True) mark) (h : Reads r domain encode) :
    Reads (Reader.optional flag r) (fun x => ∀ a ∈ x, domain a) fun x =>
      mark x.isSome ++ (x.map encode).getD [] where
  read := by
    intro x rest hx
    rw [append_assoc, Reader.optional, bind_eq_ok]
    refine ⟨x.isSome, _, hflag.read _ _ trivial, ?_⟩
    cases x with
    | none => rfl
    | some a =>
      rw [if_pos (by rfl), bind_eq_ok]
      exact ⟨a, rest, h.read a rest (hx a rfl), rfl⟩
  exact_front := by
    intro b x rest hread
    rw [Reader.optional, bind_eq_ok] at hread
    obtain ⟨present, middle, hfirst, hread⟩ := hread
    obtain ⟨-, rfl⟩ := hflag.exact_front _ _ _ hfirst
    cases present with
    | false =>
      cases hread
      exact ⟨by simp, by simp⟩
    | true =>
      rw [if_pos rfl, bind_eq_ok] at hread
      obtain ⟨a, rest', hvalue, hread⟩ := hread
      cases hread
      obtain ⟨ha, rfl⟩ := h.exact_front _ _ _ hvalue
      refine ⟨?_, (append_assoc _ _ _).symm⟩
      rintro c ⟨⟩
      exact ha

section Registered

variable {K : Type} [LinearOrder K] {key : α → K} {r : Option K → Reader ε α}
  {add : α → Registry key → Except ε (Registry key)} {addable : α → Prop} {limit : ℕ}

section

variable
  (hr : ∀ previous, Reads (r previous) (fun a => (∀ k ∈ previous, k < key a) ∧ domain a) encode)
  (hadd : ∀ a (s t : Registry key), (∀ b ∈ s.records, key b < key a) → s.records.length < limit →
    (add a s = .ok t ↔ addable a ∧ t = s.insert a))
include hr hadd

theorem registered_from (n : ℕ) (previous : Option K) (start : Registry key)
    (hlast : ∀ b ∈ start.records, ∃ k ∈ previous, key b ≤ k)
    (hlimit : start.records.length + n ≤ limit) :
    (∀ (l : List α) (rest : List UInt8) (hsorted : (start.records ++ l).Pairwise fun a b =>
        key a < key b), l.length = n →
        (∀ a ∈ l, (∀ k ∈ previous, k < key a) ∧ domain a ∧ addable a) →
      Reader.registered r add n previous start (l.flatMap encode ++ rest) =
        .ok (⟨start.records ++ l, hsorted⟩, rest)) ∧
    ∀ b (t : Registry key) rest, Reader.registered r add n previous start b = .ok (t, rest) →
      ∃ l, t.records = start.records ++ l ∧ l.length = n ∧ (∀ a ∈ l, domain a ∧ addable a) ∧
        b = l.flatMap encode ++ rest := by
  induction n generalizing previous start with
  | zero =>
    constructor
    · intro l rest hsorted hlength _
      cases length_eq_zero_iff.mp hlength
      have hsame : start = ⟨start.records ++ [], hsorted⟩ := ext_records (append_nil _).symm
      rw [← hsame]
      rfl
    · intro b t rest h
      cases h
      exact ⟨[], (append_nil _).symm, rfl, by simp, rfl⟩
  | succ n ih =>
    have hinsert : ∀ a, (∀ k ∈ previous, k < key a) → (∀ b ∈ start.records, key b < key a) := by
      intro a ha b hb
      obtain ⟨k, hk, hle⟩ := hlast b hb
      exact lt_of_le_of_lt hle (ha k hk)
    have hnext : ∀ a, (∀ k ∈ previous, k < key a) →
        ∀ b ∈ (start.insert a).records, ∃ k ∈ some (key a), key b ≤ k := by
      intro a ha
      exact forall_mem_insert ⟨key a, rfl, le_rfl⟩ fun b hb => ⟨key a, rfl, (hinsert a ha b hb).le⟩
    have hroom : ∀ a, (∀ k ∈ previous, k < key a) →
        (start.insert a).records.length + n ≤ limit := by
      intro a ha
      rw [insert_of_last (hinsert a ha), length_append, length_singleton]
      omega
    constructor
    · intro l rest hsorted hlength hall
      cases l with
      | nil => cases hlength
      | cons a l =>
        obtain ⟨ha, hda, haa⟩ := hall a mem_cons_self
        have hrecords := insert_of_last (hinsert a ha)
        have hsorted' : ((start.insert a).records ++ l).Pairwise fun a b => key a < key b := by
          rw [hrecords, append_assoc]
          exact hsorted
        have habove : ∀ b ∈ l, (∀ k ∈ some (key a), k < key b) ∧ domain b ∧ addable b := by
          intro b hb
          refine ⟨?_, (hall b (mem_cons_of_mem _ hb)).2⟩
          rintro k ⟨⟩
          exact rel_of_pairwise_cons (pairwise_append.mp hsorted).2.1 hb
        have hrest := (ih (some (key a)) (start.insert a) (hnext a ha) (hroom a ha)).1 l rest
          hsorted' (Nat.succ.inj hlength) habove
        rw [flatMap_cons, append_assoc, Reader.registered, bind_eq_ok]
        refine ⟨a, _, (hr previous).read a _ ⟨ha, hda⟩, ?_⟩
        have hadded := (hadd a start _ (hinsert a ha) (by omega)).mpr ⟨haa, rfl⟩
        rw [bind_eq_ok]
        refine ⟨start.insert a, _, by rw [Reader.lift, hadded]; rfl, ?_⟩
        rw [hrest]
        congr 3
        rw [hrecords, append_assoc]
        rfl
    · intro b t rest h
      rw [Reader.registered, bind_eq_ok] at h
      obtain ⟨a, middle, hfirst, h⟩ := h
      obtain ⟨⟨ha, hda⟩, rfl⟩ := (hr previous).exact_front _ _ _ hfirst
      rw [bind_eq_ok] at h
      obtain ⟨added, middle', hlift, h⟩ := h
      simp only [Reader.lift, map_eq_ok, Prod.mk.injEq] at hlift
      obtain ⟨_, hadded, rfl, rfl⟩ := hlift
      obtain ⟨haa, rfl⟩ := (hadd a start _ (hinsert a ha) (by omega)).mp hadded
      obtain ⟨l, hrecords, hlength, hall, rfl⟩ :=
        (ih (some (key a)) (start.insert a) (hnext a ha) (hroom a ha)).2 _ _ _ h
      refine ⟨a :: l, ?_, congrArg Nat.succ hlength, ?_, ?_⟩
      · rw [hrecords, insert_of_last (hinsert a ha), append_assoc]
        rfl
      · exact forall_mem_cons.mpr ⟨⟨hda, haa⟩, hall⟩
      · rw [flatMap_cons, append_assoc]

theorem registered {n : ℕ} (hlimit : n ≤ limit) : Reads (Reader.registered r add n none empty)
      (fun registry => registry.records.length = n ∧ ∀ a ∈ registry.records, domain a ∧ addable a)
      fun registry => registry.records.flatMap encode := by
  obtain ⟨hread, hfront⟩ := registered_from hr hadd n none empty
    (fun b hb => absurd hb not_mem_nil) (by simpa [empty] using hlimit)
  constructor
  · rintro ⟨records, hsorted⟩ rest ⟨hlength, hall⟩
    exact hread records rest hsorted hlength fun a ha => ⟨by simp, hall a ha⟩
  · intro b registry rest h
    obtain ⟨l, hrecords, hlength, hall, rfl⟩ := hfront b registry rest h
    have hsame : registry.records = l := hrecords
    rw [hsame]
    exact ⟨⟨hlength, hall⟩, rfl⟩

end

theorem inserted
    (hr : ∀ previous, Reads (r previous) (fun a => (∀ k ∈ previous, k < key a) ∧ domain a) encode)
    (n : ℕ) : Reads (Reader.registered r (fun a s => .ok (s.insert a)) n none empty)
      (fun registry : Registry key => registry.records.length = n ∧ ∀ a ∈ registry.records, domain a)
      fun registry => registry.records.flatMap encode := by
  have hadd : ∀ a (s t : Registry key), (∀ b ∈ s.records, key b < key a) → s.records.length < n →
      ((Except.ok (s.insert a) : Except ε _) = .ok t ↔ True ∧ t = s.insert a) := by
    intro a s t _ _
    rw [Except.ok.injEq, true_and, eq_comm]
  refine (registered hr hadd le_rfl).congr ?_ fun _ _ => rfl
  simp only [and_true, implies_true]

end Registered

theorem accept_eq_ok (h : Reads r domain encode) (check : α → Except ε Unit) {e : ε}
    {b : List UInt8} {a : α} :
    (r b >>= fun x => if x.2 ≠ [] then .error e else check x.1 >>= fun _ => .ok x.1) = .ok a ↔
      (domain a ∧ b = encode a) ∧ check a = .ok () := by
  simp only [Result.bind_eq_ok, eq_ok, not_not]
  constructor
  · rintro ⟨⟨read, rest⟩, hread, rfl, _, hcheck, rfl⟩
    obtain ⟨ha, rfl⟩ := h.exact_front _ _ _ hread
    exact ⟨⟨ha, append_nil _⟩, hcheck⟩
  · rintro ⟨⟨ha, rfl⟩, hcheck⟩
    have hread := h.read a [] ha
    rw [append_nil] at hread
    exact ⟨(a, []), hread, rfl, (), hcheck, rfl⟩

theorem front_eq (h : Reads r domain encode) {extra : List UInt8} {a a' : α} (ha : domain a)
    (ha' : domain a') (hlong : encode a ++ extra = encode a') : extra = [] := by
  have hread := h.read a extra ha
  rw [hlong, ← append_nil (encode a'), h.read a' [] ha'] at hread
  cases hread
  rfl

end Reads

end Reader
