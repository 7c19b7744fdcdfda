import Dnsmasq.Forward.Sound

/-!
`forward_query` keeps the table sound, for a new query, for another client's copy of a query
under way and for a retry.
-/
namespace Dnsmasq.Forward

open List Lib Forwarder

variable {cfg : Servers} {s s' : Forwarder} {P : FrecId → Prop} {f : FrecId}

theorem sendLoop_spec (r : Frec) (tries : List (ServerId × Bool)) :
    ∃ o n, (sendLoop r tries).1 = { r with sentto := o, forwardall := n } ∧
      ((sendLoop r tries).2 = false ∧ o = r.sentto ∨
        (sendLoop r tries).2 = true ∧ ∃ p ∈ tries, o = some p.1) := by
  induction tries generalizing r with
  | nil => exact ⟨r.sentto, r.forwardall, rfl, .inl ⟨rfl, rfl⟩⟩
  | cons p tries ih =>
    obtain ⟨server, ok⟩ := p
    cases ok with
    | false =>
      obtain ⟨o, n, h1, h2⟩ := ih r
      refine ⟨o, n, h1, h2.imp id fun ⟨h, p, hp, ho⟩ => ⟨h, p, mem_cons_of_mem _ hp, ho⟩⟩
    | true =>
      simp only [sendLoop]
      split
      · exact ⟨some server, r.forwardall, rfl, .inr ⟨rfl, _, mem_cons_self, rfl⟩⟩
      obtain ⟨o, n, h1, h2⟩ := ih { r with sentto := some server, forwardall := r.forwardall + 1 }
      refine ⟨o, n, by rw [h1], .inr ⟨rfl, ?_⟩⟩
      rcases h2 with ⟨-, rfl⟩ | ⟨-, p, hp, rfl⟩
      · exact ⟨_, mem_cons_self, rfl⟩
      · exact ⟨p, mem_cons_of_mem _ hp, rfl⟩

theorem Sound.io (h : Sound cfg s P) (m : Message) (sent : List Sent) :
    Sound cfg { s with packet := m, sent := sent } P :=
  ⟨h.graph.transport rfl rfl le_rfl (fun _ _ => rfl) (fun _ _ h => h) (fun _ => ⟨rfl, rfl, rfl⟩)
    fun _ _ h => h, h.staffed, h.pending, h.validated, h.trusted⟩

theorem Sound.packet (h : Sound cfg s P) (m : Message) : Sound cfg { s with packet := m } P :=
  h.io m s.sent

theorem Sound.retrieve (h : Sound cfg s P) (o : Option Stash) : Sound cfg (s.retrieve o) P := by
  cases o with
  | none => exact h
  | some st => exact h.packet st.msg

theorem Sound.dependent_of_original (h : Sound cfg s nobody)
    (hsub : (s.frec f).flags.subquery = false) : (s.frec f).dependent = none := by
  by_cases hact : s.Active f
  · by_contra hne
    rw [(h.staffed f hact).mpr hne] at hsub
    cases hsub
  · exact (h.graph.idle f id hact).dependent

structure Frec.SentOn (r r' : Frec) (tries : List (ServerId × Bool)) : Prop where
  eq : ∃ o n fl, r' = { r with sentto := o, forwardall := n, flags := fl }
  flags : r'.flags.subquery = r.flags.subquery ∧
    r'.flags.checkingDisabled = r.flags.checkingDisabled
  sentto : r'.sentto = r.sentto ∨ ∃ p ∈ tries, r'.sentto = some p.1

theorem sendOn_eq (s : Forwarder) (f : FrecId) (isDnssec : Bool) (tries : List (ServerId × Bool))
    (out : Sending) : ∃ r, (s.frec f).SentOn r tries ∧
      (sendOn s f isDnssec tries out = s.modify f (fun _ => r) ∨
        isDnssec = false ∧ sendOn s f isDnssec tries out = freeFrec (s.modify f fun _ => r) f) := by
  cases isDnssec with
  | true =>
    obtain ⟨o, n, h1, h2⟩ := sendLoop_spec (s.frec f) tries
    refine ⟨(sendLoop (s.frec f) tries).1, ⟨⟨o, n, _, h1⟩, by simp [h1], ?_⟩, .inl ?_⟩
    · rw [h1]
      exact h2.imp And.right And.right
    · simp [sendOn]
  | false =>
    have hself : (s.modify f fun r => { r with flags := r.flags.rewritten out }).frec f =
      { s.frec f with flags := (s.frec f).flags.rewritten out } := modify_frec_self
    obtain ⟨o, n, h1, h2⟩ :=
      sendLoop_spec { s.frec f with flags := (s.frec f).flags.rewritten out } tries
    refine ⟨_, ⟨⟨o, n, _, h1⟩, ?_, ?_⟩, ?_⟩
    · rw [h1]
      exact ⟨rfl, rfl⟩
    · rw [h1]
      exact h2.imp And.right And.right
    simp only [sendOn, Bool.false_eq_true, if_false, hself, Bool.or_false]
    have hmm : ∀ r, (s.modify f fun r => { r with flags := r.flags.rewritten out }).modify f
      (fun _ => r) =
        s.modify f fun _ => r := fun r => by simp [Forwarder.modify]
    rw [hmm]
    split
    · exact .inl rfl
    · exact .inr ⟨trivial, rfl⟩

theorem Sound.sendOn (h : Sound cfg s nobody) (hf : f ∈ s.frecList) (isDnssec : Bool)
    (tries : List (ServerId × Bool)) (out : Sending)
    (hsub : isDnssec = false → (s.frec f).flags.subquery = false)
    (hact : isDnssec = true → s.Active f)
    (htries : ∀ p ∈ tries, (s.frec f).flags.subquery = true → cfg.doDnssec p.1 = true) :
    Sound cfg (sendOn s f isDnssec tries out) nobody := by
  obtain ⟨r, ⟨⟨o, n, fl, rfl⟩, hflags, hsent⟩, heq⟩ := sendOn_eq s f isDnssec tries out
  have hnew : (s.frec f).sentto = none → (s.frec f).flags.subquery = false := fun hn => by
    cases isDnssec with
    | true => exact absurd hn (hact rfl)
    | false => exact hsub rfl
  have h1 : Sound cfg (s.modify f fun _ =>
      { s.frec f with sentto := o, forwardall := n, flags := fl }) nobody := by
    refine h.modify_inert hf (fun ho => ?_) ⟨rfl, rfl, rfl, rfl⟩ (fun _ => hflags)
      (fun hn => hflags.1.trans (hnew hn)) fun server hserver hq _ => ?_
    · rcases hsent with hsent | ⟨p, -, hsent⟩
      · exact hsent ▸ ho
      · rw [hsent] at ho
        cases ho
    rcases hsent with hsent | ⟨p, hp, hsent⟩
    · exact h.trusted f server (hsent ▸ hserver) hq
    · rw [hsent] at hserver
      cases hserver
      exact htries p hp hq
  rcases heq with heq | ⟨hd, heq⟩
  · rw [heq]
    exact h1
  rw [heq]
  refine (h1.freeFrec hf (h1.dependent_of_original ?_)).1
  rw [modify_frec_self]
  exact hflags.1.trans (hsub hd)

theorem Sending.within_doDnssec {out : Sending} {master : ServerId} {p : ServerId × Bool}
    (hp : p ∈ out.within cfg master) (hm : cfg.doDnssec master = true) :
    cfg.doDnssec p.1 = true := by
  have hgroup : cfg.group p.1 = cfg.group master := by
    simpa [Servers.samegroup] using (mem_filter.mp hp).2
  rw [cfg.doDnssec_group _ _ hgroup, hm]

/-- A retry is ignored, or a record in use is sent on: the query itself or, if it waits, the
last of the sub-queries it waits for, whose own query goes back into the buffer. -/
inductive RetryPath (cfg : Servers) (s : Forwarder) (out : Sending) : Forwarder → Prop
  | ignored (o : Option Stash) : RetryPath cfg s out (s.retrieve o)
  | sent (o : Option Stash) (g : FrecId) (server : ServerId) (n : Frec → ℕ) (isDnssec : Bool) :
      ((s.retrieve o).frec g).sentto = some server →
      (isDnssec = false → ((s.retrieve o).frec g).flags.subquery = false) →
      RetryPath cfg s out (sendOn ((s.retrieve o).modify g fun r => { r with forwardall := n r }) g
        isDnssec (out.within cfg server) out)

theorem retryQuery_path (cfg : Servers) (s : Forwarder) (f : FrecId) (oldSrc oldReply : Bool)
    (out : Sending) : RetryPath cfg s out (retryQuery cfg s f oldSrc oldReply out) := by
  unfold retryQuery
  split
  · simp only
    split
    · exact .ignored _
    rename_i server hserver
    split
    · exact .sent _ _ server (fun _ => 1) true hserver (by rintro ⟨⟩)
    · exact .ignored _
  split
  · exact .ignored none
  rename_i server hserver
  split
  · exact .ignored none
  · refine .sent none f server _ _ hserver fun hd => ?_
    rwa [modify_frec_self] at hd

theorem Sound.resend (h : Sound cfg s nobody) {g : FrecId} {server : ServerId} (n : Frec → ℕ)
    (isDnssec : Bool) (out : Sending) (hserver : (s.frec g).sentto = some server)
    (hsub : isDnssec = false → (s.frec g).flags.subquery = false) :
    Sound cfg (Forward.sendOn (s.modify g fun r => { r with forwardall := n r }) g isDnssec
      (out.within cfg server) out) nobody := by
  have hact : s.Active g := by
    rw [Active, hserver]
    exact Option.some_ne_none server
  have hg := h.graph.mem_of_active hact
  set t := s.modify g fun r => { r with forwardall := n r } with ht
  have hself : t.frec g = { s.frec g with forwardall := n (s.frec g) } := modify_frec_self
  have h1 : Sound cfg t nobody :=
    h.modify_inert hg id ⟨rfl, rfl, rfl, rfl⟩ (fun _ => ⟨rfl, rfl⟩) (fun hn => absurd hn hact)
      fun server' hs hq _ => h.trusted g server' hs hq
  have hact1 : t.Active g := by
    rw [Active, hself]
    exact hact
  exact h1.sendOn hg isDnssec (out.within cfg server) out
    (fun hd => by rw [hself]; exact hsub hd) (fun _ => hact1)
    fun p hp hq => Sending.within_doDnssec hp (h.trusted g server hserver (by rwa [hself] at hq))

theorem Sound.retryQuery (h : Sound cfg s nobody) (oldSrc oldReply : Bool) (out : Sending) :
    Sound cfg (retryQuery cfg s f oldSrc oldReply out) nobody := by
  have hpath := retryQuery_path cfg s f oldSrc oldReply out
  generalize Forward.retryQuery cfg s f oldSrc oldReply out = s' at hpath ⊢
  cases hpath with
  | ignored o => exact h.retrieve o
  | sent o g server n isDnssec hserver hsub =>
    exact (h.retrieve o).resend n isDnssec out hserver hsub

theorem Sound.newQuery (h : Sound cfg s nobody) (q : Query) :
    Sound cfg (newQuery cfg s q) nobody := by
  unfold Forward.newQuery
  split
  · exact h
  rcases hg : getNewFrec cfg s q.now q.master false q.memory with ⟨s', o⟩
  obtain ⟨t, ht, -, hnone, hsome⟩ := getNewFrec_collect h hg
  cases o with
  | none => exact hnone rfl ▸ ht
  | some f =>
    have htaken := hsome f rfl
    have hfree : (s'.frec f).sentto = none := not_not.mp htaken.not_active
    have h1 : Sound cfg (s'.modify f fun r => r.forQuery q) nobody :=
      (htaken.sound ht).modify_inert htaken.mem id ⟨rfl, rfl, rfl, rfl⟩
        (fun hn => absurd hfree hn) (fun _ => rfl) fun _ _ _ hn => absurd hfree hn
    refine h1.sendOn htaken.mem false (q.out.within cfg q.master) q.out
      (fun _ => by rw [modify_frec_self]; rfl) nofun fun p _ hq => ?_
    rw [modify_frec_self] at hq
    cases hq

theorem Sound.addSrc (h : Sound cfg s nobody) (c : FrecSrc) (hf : s.Active f) :
    Sound cfg (s.modify f fun r => { r with moreSrcs := c :: r.moreSrcs }) nobody :=
  h.modify_inert (h.graph.mem_of_active hf) id ⟨rfl, rfl, rfl, rfl⟩ (fun _ => ⟨rfl, rfl⟩)
    (fun hn => absurd hn hf) fun server hs hq _ => h.trusted f server hs hq

theorem lookupFrecByQuery_active {hash : List UInt8} {flags : FrecFlags}
    (h : lookupFrecByQuery s hash flags = some f) : s.Active f := by
  have := find?_some h
  simp only [Bool.and_eq_true, decide_eq_true_eq] at this
  exact Option.isSome_iff_ne_none.mp this.1.1

/-- The ways a client's query is dealt with, from the state with the query in the buffer. -/
inductive QueryPath (cfg : Servers) (s : Forwarder) (q : Query) : Forwarder → Prop
  | new : QueryPath cfg s q (newQuery cfg s q)
  | dropped : QueryPath cfg s q s
  | retried (f : FrecId) : QueryPath cfg s q (retryQuery cfg s f true false q.out)
  | joined (f : FrecId) : s.Active f →
      QueryPath cfg s q (s.modify f fun r => { r with moreSrcs := q.src :: r.moreSrcs })
  | joinedRetry (f : FrecId) : s.Active f →
      QueryPath cfg s q (retryQuery cfg
        (s.modify f fun r => { r with moreSrcs := q.src :: r.moreSrcs }) f false false q.out)

theorem forwardQuery_path (cfg : Servers) (s : Forwarder) (q : Query) :
    QueryPath cfg { s with packet := q.msg } q (forwardQuery cfg s q) := by
  unfold forwardQuery
  simp only
  split
  · exact .new
  rename_i f hfound
  have hact : { s with packet := q.msg }.Active f := by
    split at hfound
    · exact lookupFrecByQuery_active hfound
    · cases hfound
  split
  · exact .retried f
  split
  · exact .dropped
  · split
    · exact .joined f hact
    · exact .joinedRetry f hact

theorem Sound.forwardQuery (h : Sound cfg s nobody) (q : Query) :
    Sound cfg (forwardQuery cfg s q) nobody := by
  have hpath := forwardQuery_path cfg s q
  have h := h.packet q.msg
  generalize Forward.forwardQuery cfg s q = s' at hpath ⊢
  cases hpath with
  | new => exact h.newQuery q
  | dropped => exact h
  | retried f => exact h.retryQuery _ _ _
  | joined f hf => exact h.addSrc q.src hf
  | joinedRetry f hf => exact (h.addSrc q.src hf).retryQuery _ _ _

end Dnsmasq.Forward
