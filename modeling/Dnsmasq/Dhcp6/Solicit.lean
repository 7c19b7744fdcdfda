import Dnsmasq.Dhcp6.Serving

/-!
The loops for SOLICIT and REQUEST messages take the steps of `Serves`.
-/
namespace Dnsmasq.Dhcp6

open List Option

namespace Daemon

variable {s : Session} {ias : List Ia} {d₀ : Daemon} {out : List (Ia × IaAddr)}
  {ia : Ia} {w : IaWork}

section

variable (h : w.Served s ias d₀ out ia) (hia : ia ∈ ias)
include h hia

theorem solicitAddr_served {req : IaAddr}
    (hreq : req ∈ ia.addrs) : (solicitAddr s ia w req).Served s ias d₀ out ia := by
  unfold solicitAddr
  dsimp only
  split
  · exact h
  rename_i i hi
  split
  · exact h
  rename_i c hc
  split
  · rename_i addr hvalid
    have hvalid : w.daemon.configValid s ia.iaid c = some addr := by
      split at hvalid
      · cases hvalid
      · exact hvalid
    have hmarks := w.daemon.marks_markConfigUsed (s.arrival.context.dropWhile (· ≠ i)) addr
    have hrange : w.daemon.IsRange s c := isRange_of_mem (mem_of_find?_eq_some hi) hc
    have hgives := Gives.configured (hmarks.setup.isRange.mpr hrange)
      ((hmarks.configValid ia.iaid c).trans hvalid)
    exact ((h.marks hmarks).addAddress hia hgives c _ (some req)).marks
      (marks_markContextUsed _ _ _)
  split
  · exact h
  rename_i c' havail
  split
  · exact h
  rename_i hcheck
  have hsome : (w.daemon.address6Available s.arrival.context req.addr s.tagif true).isSome := by
    obtain ⟨j, hj, -⟩ := bind_eq_some_iff.mp havail
    exact isSome_iff_exists.mpr ⟨j, hj⟩
  have hgives := Gives.asked hreq hsome (by simpa using hcheck)
  exact (h.addAddress hia hgives c' _ (some req)).marks (marks_markContextUsed _ _ _)

theorem solicitConfig_served {i : ℕ}
    (hi : i ∈ s.arrival.context) : (solicitConfig s ia w i).Served s ias d₀ out ia := by
  unfold solicitConfig
  dsimp only
  split
  · exact h
  rename_i c hc
  split
  · exact h
  split
  · exact h
  rename_i addr hvalid
  have hmarks := w.daemon.marks_markConfigUsed s.arrival.context addr
  have hgives := Gives.configured (hmarks.setup.isRange.mpr (isRange_of_mem hi hc))
    ((hmarks.configValid ia.iaid c).trans hvalid)
  exact ((h.marks hmarks).addAddress hia hgives c _ none).marks (marks_markContextUsed _ _ _)

theorem solicitLease_served (id : ℕ) : (solicitLease s ia w id).Served s ias d₀ out ia := by
  unfold solicitLease
  dsimp only
  split
  · exact h
  rename_i l hl
  split
  · exact h
  rename_i hown
  split
  · exact h
  rename_i c havail
  simp only [Bool.or_eq_true, bne_iff_ne, ne_eq, not_or, not_not] at hown
  have hsome : (w.daemon.address6Available s.arrival.context l.addr s.tagif true).isSome := by
    obtain ⟨j, hj, -⟩ := bind_eq_some_iff.mp havail
    exact isSome_iff_exists.mpr ⟨j, hj⟩
  have hgives := Gives.held (mem_of_find?_eq_some hl) hown.1.1.2 hown.1.2 hown.2 hsome
  exact (h.addAddress hia hgives c _ none).marks (marks_markContextUsed _ _ _)

end

theorem solicitAllocate_served (hia : ia ∈ ias) (n rounds : ℕ) (h : w.Served s ias d₀ out ia) :
    (solicitAllocate s ia n rounds w).Served s ias d₀ out ia := by
  induction rounds generalizing w with
  | zero => exact h
  | succ rounds ih =>
    rw [solicitAllocate]
    have halloc := w.daemon.address6Allocate_allocated s.arrival.context (decide (ia.type = .ta))
      (if decide (ia.type = .ta) then s.arrival.rand n rounds else hashClid ia.iaid s.clid)
      ia.addrs.length s.tagif true
    split
    · rename_i d hd
      rw [hd] at halloc
      exact h.marks halloc.marks
    rename_i i addr d hd
    rw [hd] at halloc
    have hmarked := h.marks halloc.marks
    split
    · exact hmarked
    · rename_i c _
      exact ih ((hmarked.addAddress hia (halloc.gives rfl ia) c c.leaseTime none).marks
        (marks_markContextUsed _ _ _))

theorem foldl_served {α : Type*} {f : IaWork → α → IaWork} {xs : List α}
    (hf : ∀ w, ∀ x ∈ xs, w.Served s ias d₀ out ia → (f w x).Served s ias d₀ out ia)
    (h : w.Served s ias d₀ out ia) : (xs.foldl f w).Served s ias d₀ out ia := by
  induction xs generalizing w with
  | nil => exact h
  | cons x xs ih =>
    exact ih (fun w y hy => hf w y (mem_cons_of_mem x hy)) (hf w x mem_cons_self h)

theorem served_start {d : Daemon} (ia : Ia) (h : Serves s ias d₀ out d) :
    IaWork.Served s ias d₀ out ia { daemon := d } := by
  simpa [IaWork.Served, IaWork.addrs] using h

theorem solicitIa_served {d : Daemon} (h : Serves s ias d₀ out d) (hia : ia ∈ ias) (n : ℕ) :
    (d.solicitIa s ia n).Served s ias d₀ out ia := by
  have hstart := served_start ia (h.marks (d.marks_modifyContexts s.arrival.context
    (f := fun c => { c with used := false }) fun _ => rfl))
  refine solicitAllocate_served hia n _ (foldl_served (fun w id _ h => solicitLease_served h hia id)
    (foldl_served (fun w i hi h => solicitConfig_served h hia hi)
      (foldl_served (fun w req hreq h => solicitAddr_served h hia hreq) hstart)))

theorem requestAddr_served (h : w.Served s ias d₀ out ia) (hia : ia ∈ ias) {req : IaAddr}
    (hreq : req ∈ ia.addrs) : (requestAddr s ia w req).Served s ias d₀ out ia := by
  have hstatus : ∀ code text,
      IaWork.Served s ias d₀ out ia { w with options := w.options ++ [.status code text] } :=
    fun code text => by
      have hnone : [IaOption.status code text].filterMap IaOption.addr? = [] := rfl
      simpa [IaWork.Served, IaWork.addrs, hnone] using h
  unfold requestAddr
  dsimp only
  split
  · exact hstatus _ _
  rename_i c hc
  split
  · exact hstatus _ _
  rename_i hok
  split
  · exact hstatus _ _
  rename_i hcheck
  have hcheck : w.daemon.checkAddress s ia.iaid req.addr = true := by simpa using hcheck
  refine h.addAddress hia ?_ c _ (some req)
  cases havail : w.daemon.address6Available s.arrival.context req.addr s.tagif true with
  | some i => exact .asked hreq (by simp [havail]) hcheck
  | none =>
    simp only [havail, bind_none, isNone_none, Bool.true_and, Bool.not_eq_true,
      Bool.not_eq_false', Option.any_eq_true] at hok
    obtain ⟨c', hc', himplies⟩ := hok
    obtain ⟨i, hi, hc'⟩ := bind_eq_some_iff.mp hc'
    exact .implied hreq (isRange_of_mem (mem_of_find?_eq_some hi) hc') himplies hcheck

end Daemon

/-- The type, the IAID and the address option of every address in a reply. -/
def ReplyOption.addrs : ReplyOption → List (LeaseType × ℕ × IaAddr)
  | .ia r => (r.options.filterMap IaOption.addr?).map fun a => (r.type, r.iaid, a)
  | _ => []

def Reply.addrs (r : Reply) : List (LeaseType × ℕ × IaAddr) := r.options.flatMap ReplyOption.addrs

/-- An address given to an IA, as it stands in the reply. -/
def entry (x : Ia × IaAddr) : LeaseType × ℕ × IaAddr := (x.1.type, x.1.iaid, x.2)

/-- Every address in the answer, if there is one, was given on the way from `d₀`. -/
def Answers (s : Session) (ias : List Ia) (d₀ : Daemon) (r : Option (List ReplyOption) × Daemon) :
    Prop :=
  ∃ out, Serves s ias d₀ out r.2 ∧
    ∀ options, r.1 = some options → ∀ x ∈ options.flatMap ReplyOption.addrs, x ∈ out.map entry

namespace Daemon

variable {s : Session} {ias : List Ia} {d₀ d : Daemon} {out : List (Ia × IaAddr)}

theorem addrs_ia (ia : Ia) (w : IaWork) (minTime : Option ℕ) (rest : List IaOption)
    (hrest : rest.filterMap IaOption.addr? = []) :
    (ReplyOption.ia { type := ia.type, iaid := ia.iaid, minTime,
                      options := w.options ++ rest }).addrs =
      (w.addrs.map (Prod.mk ia)).map entry := by
  simp [ReplyOption.addrs, IaWork.addrs, hrest, entry, Function.comp_def]

theorem solicitIas_serves (jas : List Ia) (hjas : ∀ ia ∈ jas, ia ∈ ias) (n : ℕ) (assigned : Bool)
    (h : Serves s ias d₀ out d) :
    ∃ out', Serves s ias d₀ (out ++ out') (solicitIas s jas n d assigned).2.2 ∧
      ∀ x ∈ (solicitIas s jas n d assigned).1.flatMap ReplyOption.addrs, x ∈ out'.map entry := by
  induction jas generalizing n assigned out d with
  | nil => exact ⟨[], by simpa [solicitIas] using h, by simp [solicitIas]⟩
  | cons ia jas ih =>
    have hserved := solicitIa_served h (hjas ia mem_cons_self) n
    obtain ⟨w, hw⟩ : ∃ w, d.solicitIa s ia n = w := ⟨_, rfl⟩
    rw [hw] at hserved
    obtain ⟨out', hout', hin⟩ := ih (fun ja hja => hjas ja (mem_cons_of_mem ia hja)) (n + 1)
      (assigned || w.assigned) hserved
    obtain ⟨⟨options, assigned', d'⟩, hrest⟩ : ∃ r,
        solicitIas s jas (n + 1) w.daemon (assigned || w.assigned) = r :=
      ⟨_, rfl⟩
    rw [hrest] at hout' hin
    refine ⟨w.addrs.map (Prod.mk ia) ++ out', ?_, ?_⟩
    · rw [← append_assoc]
      simp only [solicitIas, hw, hrest]
      split
      · exact hout'
      · split <;> exact hout'
    intro x hx
    rw [map_append, mem_append]
    simp only [solicitIas, hw, hrest] at hx
    split at hx
    · rw [flatMap_cons, mem_append] at hx
      have hia := addrs_ia ia w (if ia.type = .na then some w.minTime else none) [] rfl
      rw [append_nil] at hia
      rw [hia] at hx
      exact hx.imp_right (hin x)
    split at hx
    · rw [flatMap_cons, mem_append] at hx
      rw [addrs_ia ia w _ [.status dhcp6noaddrs "address unavailable"] rfl] at hx
      exact hx.imp_right (hin x)
    · exact .inr (hin x hx)

theorem requestIas_serves (jas : List Ia) (hjas : ∀ ia ∈ jas, ia ∈ ias) (assigned : Bool)
    (h : Serves s ias d₀ out d) :
    ∃ out', Serves s ias d₀ (out ++ out') (requestIas s jas d assigned).2 ∧
      ∀ r, (requestIas s jas d assigned).1 = some r →
        ∀ x ∈ r.1.flatMap ReplyOption.addrs, x ∈ out'.map entry := by
  induction jas generalizing assigned out d with
  | nil =>
    refine ⟨[], by simpa [requestIas] using h, fun r hr => ?_⟩
    cases hr
    simp
  | cons ia jas ih =>
    rw [requestIas]
    split
    · exact ⟨[], by simpa using h, nofun⟩
    have hserved : (d.requestIa s ia).Served s ias d₀ out ia :=
      foldl_served (fun _ _ hreq h => requestAddr_served h (hjas ia mem_cons_self) hreq)
        (served_start ia h)
    obtain ⟨w, hw⟩ : ∃ w, d.requestIa s ia = w := ⟨_, rfl⟩
    rw [hw] at hserved
    obtain ⟨out', hout', hin⟩ := ih (fun ja hja => hjas ja (mem_cons_of_mem ia hja))
      (assigned || w.assigned) hserved
    rw [append_assoc] at hout'
    dsimp only
    rw [hw]
    split
    · rename_i d' hrest
      rw [hrest] at hout'
      exact ⟨_, hout', nofun⟩
    rename_i options assigned' d' hrest
    rw [hrest] at hout' hin
    refine ⟨_, hout', fun r hr x hx => ?_⟩
    cases hr
    rw [map_append, mem_append]
    rw [flatMap_cons, mem_append] at hx
    have hia := addrs_ia ia w (if ia.type = .na then some w.minTime else none) [] rfl
    rw [append_nil] at hia
    rw [hia] at hx
    exact hx.imp_right (hin _ rfl x)

theorem solicitReply_answers (h : Serves s ias d₀ out d) :
    Answers s ias d₀ (d.solicitReply s ias) := by
  unfold solicitReply
  split
  · exact ⟨out, h, by rintro options ⟨⟩⟩
  have hreset : Serves s ias d₀ out { d with db := d.db.lease6Reset } :=
    h.mark ⟨rfl, rfl⟩ d.db.sameLeases_lease6Reset
  have hstart := hreset.marks (marks_modifyContexts _ s.arrival.context
    (f := fun c => { c with confUsed := false }) fun _ => rfl)
  obtain ⟨out', hout', hin⟩ := solicitIas_serves ias (fun _ => id) 0 false hstart
  refine ⟨out ++ out', hout', fun options hr x hx => ?_⟩
  cases hr
  rw [flatMap_append, mem_append] at hx
  rw [map_append, mem_append]
  refine .inr (hin x (hx.resolve_right fun hx => ?_))
  split at hx <;> simp [ReplyOption.addrs] at hx

theorem requestReply_answers (d : Daemon) (s : Session) (ias : List Ia) :
    Answers s ias d (d.requestReply s ias) := by
  have hstart : Serves s ias d [] d := .start
  unfold requestReply
  split
  · exact ⟨[], hstart, nofun⟩
  obtain ⟨out, hout, hin⟩ := requestIas_serves ias (fun _ => id) false hstart
  split
  · rename_i d' hrest
    rw [hrest] at hout
    exact solicitReply_answers hout
  rename_i options' assigned d' hrest
  rw [hrest] at hout hin
  refine ⟨out, hout, fun options hr x hx => hin _ rfl x ?_⟩
  cases hr
  rw [flatMap_append, mem_append] at hx
  refine hx.resolve_right fun hx => ?_
  split at hx <;> simp [ReplyOption.addrs] at hx

end Daemon

end Dnsmasq.Dhcp6
