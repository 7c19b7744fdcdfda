import Dnsmasq.Dns.Compare

/-!
`hash_questions` and the look-up of the query that a reply belongs to. Nothing in what is hashed
marks where a name ends.
-/
namespace Dnsmasq.Dns

open List Function

/-- The bytes that are hashed for `q` more questions from `p` on. -/
def Packet.hashLoop (pkt : Packet) (dnssecValid : Bool) : ℕ → ℕ → List UInt8 → Option (List UInt8)
  | 0, _, hashed => some hashed
  | q + 1, p, hashed =>
    match pkt.extractText dnssecValid p 4 with
    | none => none
    | some (name, p) =>
      if !pkt.checkLen (p + 4) 0 then none
      else pkt.hashLoop dnssecValid q (p + 4) (hashed ++ (foldCase name ++ pkt.bytes p 4))

def Packet.qdcount (pkt : Packet) : ℕ := pkt.getShort 4

def Packet.hashQuestions {δ : Type} (sha256 : List UInt8 → δ) (dnssecValid : Bool) (pkt : Packet) :
    Option δ :=
  (pkt.hashLoop dnssecValid pkt.qdcount 12 []).map sha256

/-- A query that has been forwarded, as far as `lookup_frec` reads it. `fds` are the sockets that it
was sent from: the random ones, and those of the servers it may have gone to. -/
structure SentQuery (δ : Type) where
  sentto : Bool
  newId : ℕ
  hash : δ
  fds : List ℕ

def lookupFrec {δ : Type} [DecidableEq δ] (frecList : List (SentQuery δ)) (id fd : ℕ) :
    Option δ → Option (SentQuery δ)
  | none => none
  | some hash =>
    frecList.find? fun f => f.sentto && f.newId == id && f.hash == hash && f.fds.contains fd

structure AskedQuestion where
  name : Name
  qtype : ℕ
  qclass : ℕ

/-- The questions in a message from `p` on. -/
inductive Packet.QuestionsAt (pkt : Packet) : ℕ → List AskedQuestion → Prop
  | nil (p : ℕ) : pkt.QuestionsAt p []
  | cons {p q : ℕ} {n : Name} {qs : List AskedQuestion} (hname : pkt.ValidName p 4 n q)
      (hrest : pkt.QuestionsAt (q + 4) qs) :
      pkt.QuestionsAt p (⟨n, pkt.getShort q, pkt.getShort (q + 2)⟩ :: qs)

def Packet.Asks (pkt : Packet) (qs : List AskedQuestion) : Prop := qs.length = pkt.qdcount ∧
    pkt.QuestionsAt 12 qs

structure SameQuestion (a b : AskedQuestion) : Prop where
  name : SameFold a.name b.name
  qtype : a.qtype = b.qtype
  qclass : a.qclass = b.qclass

def textLength (dnssecValid : Bool) (n : Name) : ℕ := (dotted dnssecValid n).dropLast.length

def SameQuestions (pkt pkt' : Packet) : Prop :=
  ∃ qs qs', pkt.Asks qs ∧ pkt'.Asks qs' ∧ List.Forall₂ SameQuestion qs qs'

/-- The two messages have the same number of questions, with equally long names in each place. -/
def SameLengths (dnssecValid : Bool) (pkt pkt' : Packet) : Prop :=
  ∃ qs qs', pkt.Asks qs ∧ pkt'.Asks qs' ∧
    qs.map (fun a => textLength dnssecValid a.name) = qs'.map fun a => textLength dnssecValid a.name

variable {pkt pkt' : Packet} {dnssecValid : Bool}

def typeBytes (qtype qclass : ℕ) : List UInt8 :=
  [.ofNat (qtype / 256), .ofNat qtype, .ofNat (qclass / 256), .ofNat qclass]

def hashedBytes (dnssecValid : Bool) (a : AskedQuestion) : List UInt8 :=
  foldCase (dotted dnssecValid a.name).dropLast ++ typeBytes a.qtype a.qclass

namespace Packet

theorem getShort_lt (pkt : Packet) (p : ℕ) : pkt.getShort p < 65536 := by
  have hhi := pkt.get_lt p
  have hlo := pkt.get_lt (p + 1)
  unfold getShort
  omega

theorem bytes_four (pkt : Packet) (p : ℕ) :
    pkt.bytes p 4 = typeBytes (pkt.getShort p) (pkt.getShort (p + 2)) := by
  have hpair : ∀ a b : UInt8, UInt8.ofNat ((a.toNat * 256 + b.toNat) / 256) = a ∧
      UInt8.ofNat (a.toNat * 256 + b.toNat) = b := by
    intro a b
    have ha := a.toNat_lt
    have hb := b.toNat_lt
    constructor <;> apply UInt8.toNat_inj.mp <;> rw [UInt8.toNat_ofNat'] <;> omega
  unfold typeBytes getShort get
  rw [(hpair _ _).1, (hpair _ _).2, (hpair _ _).1, (hpair _ _).2]
  rfl

theorem hashLoop_eq_some {q p : ℕ} {hashed x : List UInt8}
    (h : pkt.hashLoop dnssecValid q p hashed = some x) :
    ∃ qs, qs.length = q ∧ pkt.QuestionsAt p qs ∧ (∀ a ∈ qs, Storable dnssecValid a.name) ∧
      x = hashed ++ qs.flatMap (hashedBytes dnssecValid) := by
  induction q generalizing p hashed with
  | zero =>
    cases h
    exact ⟨[], rfl, .nil p, forall_mem_nil _, (append_nil _).symm⟩
  | succ q ih =>
    rw [hashLoop] at h
    split at h
    · cases h
    next name p' hname =>
    split_ifs at h
    obtain ⟨n, hn, htext, rfl⟩ := extractText_eq_some_iff.mp hname
    have hvalid := extractName_eq_some_iff.mp hn
    obtain ⟨qs, rfl, hqs, hstore, rfl⟩ := ih h
    obtain ⟨k, -, hat⟩ := hvalid.inside
    refine ⟨_ :: qs, rfl, .cons hvalid hqs, forall_mem_cons.mpr ⟨?_, hstore⟩, ?_⟩
    · exact ⟨fun l hl => (hat.labels l hl).1, fun l hl => (hat.labels l hl).2, htext⟩
    · rw [flatMap_cons, hashedBytes, bytes_four, append_assoc]

theorem QuestionsAt.unique {p : ℕ} {qs qs' : List AskedQuestion} (h : pkt.QuestionsAt p qs)
    (h' : pkt.QuestionsAt p qs') (hlen : qs.length = qs'.length) : qs = qs' := by
  induction h generalizing qs' with
  | nil p => exact (length_eq_zero_iff.mp hlen.symm).symm
  | cons hname hrest ih =>
    cases h' with
    | nil p => cases hlen
    | cons hname' hrest' =>
      have heq := extractName_eq_some_iff.mpr hname
      rw [extractName_eq_some_iff.mpr hname'] at heq
      obtain ⟨rfl, rfl⟩ := heq
      rw [ih hrest' (Nat.succ.inj hlen)]

theorem Asks.unique {qs qs' : List AskedQuestion} (h : pkt.Asks qs) (h' : pkt.Asks qs') :
    qs = qs' :=
  h.2.unique h'.2 (h.1.trans h'.1.symm)

theorem QuestionsAt.fields_lt {p : ℕ} {qs : List AskedQuestion} (h : pkt.QuestionsAt p qs) :
    ∀ a ∈ qs, a.qtype < 65536 ∧ a.qclass < 65536 := by
  induction h with
  | nil p => exact forall_mem_nil _
  | cons hname hrest ih => exact forall_mem_cons.mpr ⟨⟨pkt.getShort_lt _, pkt.getShort_lt _⟩, ih⟩

end Packet

structure AskedQuestion.Valid (dnssecValid : Bool) (a : AskedQuestion) : Prop where
  storable : Storable dnssecValid a.name
  qtype : a.qtype < 65536
  qclass : a.qclass < 65536

theorem typeBytes_inj {t c t' c' : ℕ} (ht : t < 65536) (hc : c < 65536) (ht' : t' < 65536)
    (hc' : c' < 65536) (h : typeBytes t c = typeBytes t' c') : t = t' ∧ c = c' := by
  simp only [typeBytes, List.cons.injEq, ← UInt8.toNat_inj, UInt8.toNat_ofNat'] at h
  omega

theorem length_hashedBytes (a : AskedQuestion) :
    (foldCase (dotted dnssecValid a.name).dropLast).length = textLength dnssecValid a.name :=
      length_map _

section

variable {qs qs' : List AskedQuestion} (hqs : ∀ a ∈ qs, a.Valid dnssecValid) (hqs' : ∀ a ∈ qs',
  a.Valid dnssecValid)
include hqs hqs'

theorem sameQuestion_of_hashedBytes
    (hlen : qs.map (fun a => textLength dnssecValid a.name) = qs'.map fun a =>
      textLength dnssecValid a.name)
    (h : qs.flatMap (hashedBytes dnssecValid) = qs'.flatMap (hashedBytes dnssecValid)) :
    List.Forall₂ SameQuestion qs qs' := by
  induction qs generalizing qs' with
  | nil =>
    obtain rfl : qs' = [] := map_eq_nil_iff.mp hlen.symm
    exact .nil
  | cons a qs ih =>
    cases qs' with
    | nil => cases hlen
    | cons b qs' =>
      obtain ⟨ha, hqs⟩ := forall_mem_cons.mp hqs
      obtain ⟨hb, hqs'⟩ := forall_mem_cons.mp hqs'
      obtain ⟨htext, hlen⟩ := List.cons.inj hlen
      simp only [flatMap_cons, hashedBytes, append_assoc] at h
      obtain ⟨hname, hrest⟩ := append_inj h (by
        rw [length_hashedBytes, length_hashedBytes]
        exact htext)
      obtain ⟨htype, hrest⟩ := append_inj hrest rfl
      obtain ⟨hqtype, hqclass⟩ := typeBytes_inj ha.qtype ha.qclass hb.qtype hb.qclass htype
      exact .cons ⟨(foldCase_text_eq_iff ha.storable hb.storable).mp hname, hqtype,
        hqclass⟩ (ih hqs hqs' hlen hrest)

theorem textLengths_of_sameQuestion (h : List.Forall₂ SameQuestion qs qs') :
    qs.map (fun a => textLength dnssecValid a.name) = qs'.map fun a =>
    textLength dnssecValid a.name := by
  induction h with
  | nil => rfl
  | cons hab h ih =>
    obtain ⟨ha, hqs⟩ := forall_mem_cons.mp hqs
    obtain ⟨hb, hqs'⟩ := forall_mem_cons.mp hqs'
    have hfold := (foldCase_text_eq_iff ha.storable hb.storable).mpr hab.name
    rw [map_cons, map_cons, ih hqs hqs', ← length_hashedBytes, hfold, length_hashedBytes]

end

section Digest

variable {δ : Type} {sha256 : List UInt8 → δ}

theorem exists_asks_of_hashQuestions {x : δ} (h : pkt.hashQuestions sha256 dnssecValid = some x) :
    ∃ qs, pkt.Asks qs ∧ (∀ a ∈ qs, a.Valid dnssecValid) ∧
      x = sha256 (qs.flatMap (hashedBytes dnssecValid)) := by
  obtain ⟨hashed, hloop, rfl⟩ := Option.map_eq_some_iff.mp h
  obtain ⟨qs, hlen, hqs, hstore, rfl⟩ := Packet.hashLoop_eq_some hloop
  exact ⟨qs, ⟨hlen, hqs⟩, fun a ha => ⟨hstore a ha, (hqs.fields_lt a ha).1,
    (hqs.fields_lt a ha).2⟩, rfl⟩

theorem sameQuestions_iff_of_hash (hsha : Injective sha256) {x : δ}
    (h : pkt.hashQuestions sha256 dnssecValid = some x)
    (h' : pkt'.hashQuestions sha256 dnssecValid = some x) : SameQuestions pkt pkt' ↔
    SameLengths dnssecValid pkt pkt' := by
  obtain ⟨qs, hasks, hvalid, rfl⟩ := exists_asks_of_hashQuestions h
  obtain ⟨qs', hasks', hvalid', heq⟩ := exists_asks_of_hashQuestions h'
  constructor
  · rintro ⟨as, as', has, has', hsame⟩
    obtain rfl := hasks.unique has
    obtain rfl := hasks'.unique has'
    exact ⟨qs, qs', hasks, hasks', textLengths_of_sameQuestion hvalid hvalid' hsame⟩
  rintro ⟨as, as', has, has', hlen⟩
  obtain rfl := hasks.unique has
  obtain rfl := hasks'.unique has'
  exact ⟨qs, qs', hasks, hasks', sameQuestion_of_hashedBytes hvalid hvalid' hlen (hsha heq)⟩

theorem hash_of_lookupFrec [DecidableEq δ] {frecList : List (SentQuery δ)} {id fd : ℕ}
    {hash : Option δ} {f : SentQuery δ} (h : lookupFrec frecList id fd hash = some f) :
    hash = some f.hash := by
  cases hash with
  | none => cases h
  | some hash =>
    have hfound := find?_some h
    simp only [Bool.and_eq_true, beq_iff_eq] at hfound
    rw [hfound.1.2]

/-- Messages with one digest ask the same questions, and so does a reply that is accepted, just
where the questions are equally many and their names equally long. -/
theorem sameQuestions_iff_sameLengths
    [DecidableEq δ] (hsha : Injective sha256) (dnssecValid : Bool) :
    (∀ (pkt pkt' : Packet) (x : δ), pkt.hashQuestions sha256 dnssecValid = some x →
      pkt'.hashQuestions sha256 dnssecValid = some x →
      (SameQuestions pkt pkt' ↔ SameLengths dnssecValid pkt pkt')) ∧
    ∀ (frecList : List (SentQuery δ)) (id fd : ℕ) (sent reply : Packet) (f : SentQuery δ),
      lookupFrec frecList id fd (reply.hashQuestions sha256 dnssecValid) = some f →
      sent.hashQuestions sha256 dnssecValid = some f.hash →
      (SameQuestions sent reply ↔ SameLengths dnssecValid sent reply) := by
  constructor
  · intro pkt pkt' x h h'
    exact sameQuestions_iff_of_hash hsha h h'
  · intro frecList id fd sent reply f hlook hsent
    exact sameQuestions_iff_of_hash hsha hsent (hash_of_lookupFrec hlook)

end Digest

/-- One question, for the name `aaaaab`. -/
def oneQuestion : Packet :=
  .ofBytes ([0, 0, 0, 0, 0, 1, 0, 0, 0, 0, 0, 0] ++ [6, 97, 97, 97, 97, 97, 98, 0] ++ [0, 1, 0, 1])

/-- Two questions, for `a` with a type and class of the bytes `aaaa`, and for `b`. -/
def twoQuestions : Packet :=
  .ofBytes ([0, 0, 0, 0, 0, 2, 0, 0, 0, 0, 0, 0] ++ [1, 97, 0] ++ [97, 97, 97, 97] ++ [1,
    98, 0] ++ [0, 1, 0, 1])

def oneSent : SentQuery (List UInt8) where
  sentto := true
  newId := 7
  hash := [97, 97, 97, 97, 97, 98, 0, 1, 0, 1]
  fds := [3]

theorem sameQuestions_oneQuestion : oneQuestion.hashQuestions id true = some oneSent.hash ∧
      lookupFrec [oneSent] 7 3 (oneQuestion.hashQuestions id true) = some oneSent ∧
      (SameQuestions oneQuestion oneQuestion ↔ SameLengths true oneQuestion oneQuestion) :=
  have h : oneQuestion.hashQuestions id true = some oneSent.hash := by decide
  have hlook : lookupFrec [oneSent] 7 3 (oneQuestion.hashQuestions id true) = some oneSent := by
    rw [h]
    rfl
  ⟨h, hlook, (sameQuestions_iff_sameLengths Function.injective_id true).2 [oneSent]
    7 3 oneQuestion oneQuestion oneSent hlook h⟩

/-- The two messages have one digest, so a reply with two questions is taken for one that repeats
the query. -/
theorem twoQuestions_accepted : (∀ {δ : Type} (sha256 : List UInt8 → δ) (dnssecValid : Bool),
      (oneQuestion.hashQuestions sha256 dnssecValid).isSome ∧
      oneQuestion.hashQuestions sha256 dnssecValid =
      twoQuestions.hashQuestions sha256 dnssecValid) ∧
    oneQuestion.hashQuestions id true = some oneSent.hash ∧
    (lookupFrec [oneSent] 7 3 (twoQuestions.hashQuestions id true)).isSome ∧
    ¬ SameQuestions oneQuestion twoQuestions := by
  have hloop : ∀ dnssecValid, oneQuestion.hashLoop dnssecValid oneQuestion.qdcount 12 [] =
      some oneSent.hash ∧ twoQuestions.hashLoop dnssecValid twoQuestions.qdcount 12 [] =
      some oneSent.hash := by
    decide
  refine ⟨?_, by decide, by decide, ?_⟩
  · intro δ sha256 dnssecValid
    unfold Packet.hashQuestions
    rw [(hloop dnssecValid).1, (hloop dnssecValid).2]
    exact ⟨rfl, rfl⟩
  rintro ⟨qs, qs', hqs, hqs', hsame⟩
  have hlen := hsame.length_eq
  rw [hqs.1, hqs'.1] at hlen
  exact absurd hlen (by decide)

end Dnsmasq.Dns
