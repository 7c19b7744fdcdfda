import Dnsmasq.Dhcp.Tags

/-!
Which nodes `dhcp_reply` pushes twice: only `known_id`, when a `dhcp-host` line is found for the
client and again for its name.
-/
namespace Dnsmasq.Dhcp

open List Option Lib Function

section Matching

variable {α : Type*} {node : ℕ → TagNode} {tag : α → Tag} {lines : List α} {p q : α → ℕ → Bool}

theorem mem_matching {x : TagNode} (h : x ∈ (matching node tag lines p).map Prod.fst) :
    ∃ i a, x = node i ∧ lines[i]? = some a ∧ p a i = true := by
  simp only [matching, List.map_map, List.mem_map, mem_filter, comp_apply] at h
  obtain ⟨⟨a, i⟩, ⟨hmem, hp⟩, rfl⟩ := h
  exact ⟨i, a, rfl, mk_mem_zipIdx_iff_getElem?.mp hmem, hp⟩

theorem nodup_matching (hnode : Injective node) :
    ((matching node tag lines p).map Prod.fst).Nodup := by
  have hidx : ((lines.zipIdx.filter fun x => p x.1 x.2).map Prod.snd).Nodup := by
    have hall : (lines.zipIdx.map Prod.snd).Nodup := by
      rw [zipIdx_map_snd]
      exact nodup_range'
    exact hall.sublist (filter_sublist.map Prod.snd)
  have hmap := hidx.map hnode
  rw [List.map_map] at hmap
  rwa [matching, List.map_map]

theorem disjoint_matching (hnode : Injective node) (hpq : ∀ a i, p a i = true → q a i = false) :
    List.Disjoint ((matching node tag lines p).map Prod.fst)
    ((matching node tag lines q).map Prod.fst) := by
  intro x hp hq
  obtain ⟨i, a, rfl, ha, hp⟩ := mem_matching hp
  obtain ⟨j, b, hij, hb, hq⟩ := mem_matching hq
  cases hnode hij
  cases ha.symm.trans hb
  rw [hpq a i hp] at hq
  cases hq

end Matching

/-- When a node can be pushed: before the first search for a `dhcp-host` line, after it, with
the name of the client, or with the line found. -/
def TagNode.stage : TagNode → ℕ
  | known => 1
  | nameMatch _ => 2
  | config _ _ => 3
  | file => 4
  | bootp => 5
  | _ => 0

theorem Vendor.matchesClass_of_matchesAgent
    {v : Vendor} {pkt : TagOptions} (h : v.matchesAgent pkt = true) :
    v.matchesClass pkt = false := by
  unfold matchesAgent at h
  unfold matchesClass
  cases hv : v.matchType <;> simp_all

namespace TagLines

variable (lines : TagLines) (pkt : TagOptions) (req : Request)

def localNodes : List (TagNode × Tag) :=
  (.iface, pkt.ifaceName) :: (if pkt.gatewayId then [(.cpewan, tagCpewan)] else [])

theorem mem_localNodes {x : TagNode} (h : x ∈ (localNodes pkt).map Prod.fst) :
    x = .iface ∨ x = .cpewan := by
  unfold localNodes at h
  split at h <;> simp_all

theorem nodup_localNodes : ((localNodes pkt).map Prod.fst).Nodup := by
  unfold localNodes
  split <;> simp

section

variable {x : TagNode} (h : x ∈ (lines.clientNodes pkt req).map Prod.fst)
include h

theorem mem_clientNodes :
    x = .iface ∨ x = .cpewan ∨ ∃ i, x = .vendor i ∨ x = .mac i ∨ x = .dhcpMatch i := by
  simp only [clientNodes, map_append, mem_append] at h
  rcases h with (((h | h) | h) | h) | h
  · rcases mem_localNodes pkt h with h | h <;> simp [h]
  all_goals
    obtain ⟨i, -, rfl, -⟩ := mem_matching h
    simp

theorem clientNodes_stage : x.stage < 1 ∧ x.isTemporary = false := by
  rcases mem_clientNodes lines pkt req h with rfl | rfl | ⟨i, rfl | rfl | rfl⟩ <;>
    exact ⟨Nat.zero_lt_one, rfl⟩

end

theorem injective_vendor : Injective TagNode.vendor := fun _ _ => TagNode.vendor.inj

theorem nodup_clientNodes : ((lines.clientNodes pkt req).map Prod.fst).Nodup := by
  simp only [clientNodes, map_append]
  refine ((((nodup_localNodes pkt).append (nodup_matching injective_vendor) ?_).append
    (nodup_matching fun _ _ => TagNode.mac.inj) ?_).append
    (nodup_matching fun _ _ => TagNode.dhcpMatch.inj) ?_).append (nodup_matching injective_vendor)
    ?_
  all_goals intro x hx hx'
  · obtain ⟨i, -, rfl, -⟩ := mem_matching hx'
    simpa using mem_localNodes pkt hx
  · obtain ⟨i, -, rfl, -⟩ := mem_matching hx'
    rcases mem_append.mp hx with hx | hx
    · simpa using mem_localNodes pkt hx
    · obtain ⟨j, -, hj, -⟩ := mem_matching hx
      cases hj
  · obtain ⟨i, -, rfl, -⟩ := mem_matching hx'
    simp only [mem_append] at hx
    rcases hx with (hx | hx) | hx
    · simpa using mem_localNodes pkt hx
    all_goals
      obtain ⟨j, -, hj, -⟩ := mem_matching hx
      cases hj
  simp only [mem_append] at hx
  rcases hx with ((hx | hx) | hx) | hx
  · obtain ⟨i, -, rfl, -⟩ := mem_matching hx'
    simpa using mem_localNodes pkt hx
  · exact disjoint_matching injective_vendor
      (fun _ _ => Vendor.matchesClass_of_matchesAgent) hx hx'
  all_goals
    obtain ⟨i, -, rfl, -⟩ := mem_matching hx'
    obtain ⟨j, -, hj, -⟩ := mem_matching hx
    cases hj

theorem nameNodes_stage {x : TagNode} (h : x ∈ (lines.nameNodes pkt).map Prod.fst) :
    x.stage = 2 ∧ x.isTemporary = false := by
  obtain ⟨i, -, rfl, -⟩ := mem_matching h
  exact ⟨rfl, rfl⟩

end TagLines

namespace Daemon

open TagStack

variable (d : Daemon) {s : TagStack} {l : List TagNode} {tags : List Tag}

theorem configNodes_stage {config : Option ℕ} {x : TagNode}
    (h : x ∈ (d.configNodes config).map Prod.fst) : x.stage = 3 ∧ x.isTemporary = false := by
  unfold configNodes at h
  split at h
  · simp only [List.map_map, List.mem_map, comp_apply] at h
    obtain ⟨⟨t, j⟩, -, rfl⟩ := h
    exact ⟨rfl, rfl⟩
  · cases h

theorem nodup_configNodes (config : Option ℕ) : ((d.configNodes config).map Prod.fst).Nodup := by
  cases config with
  | none => exact nodup_nil
  | some i =>
    unfold configNodes
    cases d.config (some i) with
    | none => exact nodup_nil
    | some c =>
      have hidx : (c.netid.zipIdx.map Prod.snd).Nodup := by
        rw [zipIdx_map_snd]
        exact nodup_range'
      have hmap := hidx.map (f := TagNode.config i) fun _ _ h => (TagNode.config.inj h).2
      rw [List.map_map] at hmap
      rwa [List.map_map]

theorem holds_pushAll_stage {xs : List (TagNode × Tag)} {k : ℕ} (h : s.Holds l tags)
    (hl : ∀ x ∈ l, x.stage < k) (hnodup : (xs.map Prod.fst).Nodup)
    (hxs : ∀ x ∈ xs.map Prod.fst, k ≤ x.stage ∧ x.isTemporary = false) :
    TagStack.Holds (s.pushAll xs) ((xs.map Prod.fst).reverse ++ l)
    ((xs.map Prod.snd).reverse ++ tags) :=
  h.pushAll hnodup (fun x hx hm => (hl x hm).not_ge (hxs x hx).1) fun x hx => (hxs x hx).2

theorem knownTag_spec (context : List ℕ) (clid : Option Bytes) (req : Request) (h : s.Holds l tags)
    (hl : ∀ x ∈ l, x.stage < 1) :
    ∃ t l', d.knownTag context clid req s =
      some ((d.knownConfig context clid (req.withTags tags)).1, t) ∧
      TagStack.Holds t l' (d.knownConfig context clid (req.withTags tags)).2 ∧
      (∀ x ∈ l', x.stage < 2) ∧
      ((d.knownConfig context clid (req.withTags tags)).1 = none → (TagNode.known ∈ l' ↔
        (d.findConfig [] clid req.chaddr req.htype none (runTagIf d.tagIf tags)).isSome)) := by
  obtain ⟨t, ht, hkeeps⟩ := h.runTagIf d.tagIf d.filters
  have hknown : TagNode.known ∉ l := fun hm => absurd (hl _ hm) (by decide)
  have hstage : ∀ x ∈ TagNode.known :: l, x.stage < 2 := fun x hx => by
    rcases mem_cons.mp hx with rfl | hx
    · decide
    · exact (hl x hx).trans Nat.one_lt_two
  have htags := h.keeps hkeeps
  simp only [knownTag, knownConfig, Request.withTags, ht, bind_some]
  cases hfind : d.findConfig context clid req.chaddr req.htype none (runTagIf d.tagIf tags) with
  | some i => exact ⟨_, _, rfl, htags.push hknown rfl tagKnown, hstage, by rintro ⟨⟩⟩
  | none =>
    obtain ⟨u, hu, hkeeps'⟩ := htags.runTagIf d.tagIf d.filters
    have htags' := htags.keeps hkeeps'
    simp only [hu, map_some]
    by_cases hother :
      (d.findConfig [] clid req.chaddr req.htype none (runTagIf d.tagIf tags)).isSome = true
    · simp only [hother, if_true]
      exact ⟨_, _, rfl, htags'.push hknown rfl tagKnownOthernet, hstage, fun _ => by simp⟩
    · simp only [hother, Bool.false_eq_true, if_false]
      exact ⟨_, _, rfl, htags', fun x hx => (hl x hx).trans Nat.one_lt_two,
        fun _ => by simp [hknown]⟩

theorem namedTag_spec (context : List ℕ) (req : Request) (config : Option ℕ) (h : s.Holds l tags)
    (hk : config = none → TagNode.known ∈ l → (d.namedConfig context req (config, tags)).1 = none) :
    ∃ t l', d.namedTag context req config s =
      some ((d.namedConfig context req (config, tags)).1, t) ∧
      TagStack.Holds t l' (d.namedConfig context req (config, tags)).2 ∧
      ∀ x ∈ l', x = .known ∨ x ∈ l := by
  cases config with
  | some i => exact ⟨s, l, by simp [namedTag, namedConfig], h, fun _ => .inr⟩
  | none =>
    cases hname : req.hostname with
    | none =>
      exact ⟨s, l, by simp [namedTag, namedConfig, hname], by simpa [namedConfig, hname] using h,
        fun _ => .inr⟩
    | some name =>
      obtain ⟨t, ht, hkeeps⟩ := h.runTagIf d.tagIf d.filters
      have htags := h.keeps hkeeps
      simp only [namedConfig, hname, isSome_none, Bool.false_eq_true, if_false] at hk ⊢
      simp only [namedTag, hname, ht, isSome_none, Bool.false_eq_true, if_false, map_some]
      cases hfind : d.findConfig context none req.chaddr req.htype (some name)
          (runTagIf d.tagIf tags) with
      | none => exact ⟨t, l, rfl, htags, fun _ => .inr⟩
      | some i =>
        simp only [hfind] at hk ⊢
        by_cases hfree : ((d.dhcpConf[i]?).any fun c => c.clid.isNone && c.hwaddr.isEmpty) = true
        · have hknown : TagNode.known ∉ l := fun hm => by simpa [hfree] using hk trivial hm
          simp only [hfree, if_true]
          exact ⟨_, _, rfl, htags.push hknown rfl tagKnown, fun x hx => mem_cons.mp hx⟩
        · simp only [hfree, Bool.false_eq_true, if_false]
          exact ⟨t, l, rfl, htags, fun _ => .inr⟩

theorem namedTag_loops (context : List ℕ) (req : Request) (h : s.Holds l tags)
    (hknown : TagNode.known ∈ l) (hnamed : (d.namedConfig context req (none, tags)).1.isSome) :
    ∃ config t, d.namedTag context req none s = some (config, t) ∧ TagStack.Loops t := by
  cases hname : req.hostname with
  | none => simp [namedConfig, hname] at hnamed
  | some name =>
    obtain ⟨t, ht, hkeeps⟩ := h.runTagIf d.tagIf d.filters
    have htags := h.keeps hkeeps
    simp only [namedConfig, hname, isSome_none, Bool.false_eq_true, if_false] at hnamed
    simp only [namedTag, hname, ht, isSome_none, Bool.false_eq_true, if_false, map_some]
    cases hfind : d.findConfig context none req.chaddr req.htype (some name)
        (runTagIf d.tagIf tags) with
    | none => simp [hfind] at hnamed
    | some i =>
      simp only [hfind] at hnamed ⊢
      split at hnamed
      · rename_i hfree
        exact ⟨_, _, by rw [if_pos hfree], htags.loops_push hknown _⟩
      · cases hnamed

theorem useTags_keeps {use : TagUse} {t : TagStack} (h : d.useTags s use = some t) : Keeps s t := by
  cases use <;> obtain ⟨⟨tags, u⟩, hu, rfl⟩ := map_eq_some_iff.mp h
  · exact runContext_keeps hu
  · exact optionFilter_keeps hu

theorem uses_isSome (uses : List TagUse) (h : s.Holds l tags) :
    (uses.foldlM d.useTags s).isSome := by
  induction uses generalizing s with
  | nil => rfl
  | cons use uses ih =>
    obtain ⟨t, ht⟩ : ∃ t, d.useTags s use = some t := by
      cases use with
      | range i checks =>
        obtain ⟨t, ht⟩ := h.runContext d.tagIf checks i (d.dhcp[i]?.bind (·.netid))
        exact ⟨t, by simp [useTags, ht]⟩
      | options i checks =>
        obtain ⟨t, ht⟩ := h.optionFilter d.tagIf checks i (d.dhcp[i]?.bind (·.netid))
        exact ⟨t, by simp [useTags, ht]⟩
    rw [foldlM_cons, ht]
    exact ih (h.keeps (d.useTags_keeps ht))

theorem useTags_loops (use : TagUse) (h : s.Loops) : (d.useTags s use).isSome ↔
    (∀ e ∈ d.tagIf, e.tag = []) ∧ ∀ check ∈ use.checks, check = [] := by
  cases use <;> rw [useTags, Option.isSome_map]
  · exact runContext_circular h.circular
  · exact h.optionFilter_isSome

theorem uses_loops (uses : List TagUse) (h : s.Loops) (hrules : ∀ e ∈ d.tagIf, e.tag = []) :
    (uses.foldlM d.useTags s).isSome ↔ ∀ use ∈ uses, ∀ check ∈ use.checks, check = [] := by
  induction uses generalizing s with
  | nil => simp
  | cons use uses ih =>
    have hfirst := d.useTags_loops use h
    rw [foldlM_cons, forall_mem_cons]
    cases ht : d.useTags s use with
    | none => simp_all
    | some t =>
      rw [ht] at hfirst
      exact (ih (h.keeps (d.useTags_keeps ht))).trans (and_iff_right (hfirst.mp rfl).2).symm

theorem finish_isSome (uses : List TagUse) (h : s.Holds l tags) :
    ((TagStack.runTagIf d.tagIf d.dhcpIgnore s).bind fun (_, s) =>
      uses.foldlM d.useTags s).isSome := by
  obtain ⟨t, ht, hkeeps⟩ := h.runTagIf d.tagIf d.dhcpIgnore
  rw [ht]
  exact d.uses_isSome uses (h.keeps hkeeps)

theorem finish_loops (uses : List TagUse) (h : s.Loops) :
    ((TagStack.runTagIf d.tagIf d.dhcpIgnore s).bind fun (_, s) => uses.foldlM d.useTags s).isSome ↔
      ¬ d.Searched uses := by
  have hfirst := runTagIf_circular h.circular d.tagIf d.dhcpIgnore
  cases ht : TagStack.runTagIf d.tagIf d.dhcpIgnore s with
  | none =>
    simp only [ht, isSome_none, Bool.false_eq_true, false_iff, not_and_or] at hfirst
    simp only [bind_none, isSome_none, Bool.false_eq_true, false_iff, not_not, Searched]
    rcases hfirst with hrule | hignore
    · exact .inl (by simpa using hrule)
    · exact .inr (.inl (by simpa using hignore))
  | some r =>
    rw [ht] at hfirst
    obtain ⟨hrules, hignore⟩ := hfirst.mp rfl
    refine (d.uses_loops uses (h.keeps (runTagIf_keeps ht)) hrules).trans ?_
    simp only [Searched, not_or]
    refine ⟨fun hquiet => ⟨?_, ?_, ?_⟩, fun hquiet => by simpa using hquiet.2.2⟩
    · simpa using hrules
    · simpa using hignore
    · simpa using hquiet

theorem bootpNodes_holds (config : Option ℕ) (req : Request) (h : s.Holds l tags)
    (hl : ∀ x ∈ l, x.stage < 3) : ∃ l' tags',
    TagStack.Holds (s.pushAll (d.bootpNodes config req)) l' tags' := by
  have hstage : ∀ x ∈ (d.bootpNodes config req).map Prod.fst, 3 ≤ x.stage ∧
      x.isTemporary = false := by
    intro x hx
    simp only [bootpNodes, map_append, mem_append] at hx
    rcases hx with (hx | hx) | hx
    · exact ⟨(d.configNodes_stage hx).1.ge, (d.configNodes_stage hx).2⟩
    · cases hf : req.file <;> simp_all [TagNode.stage, TagNode.isTemporary]
    · simp_all [TagNode.stage, TagNode.isTemporary]
  have hnodup : ((d.bootpNodes config req).map Prod.fst).Nodup := by
    simp only [bootpNodes, map_append]
    refine ((d.nodup_configNodes config).append ?_ ?_).append (nodup_singleton _) ?_
    · cases req.file <;> simp
    · intro x hx hx'
      have := (d.configNodes_stage hx).1
      cases hf : req.file <;> simp_all [TagNode.stage]
    intro x hx hx'
    rcases mem_append.mp hx with hx | hx
    · have := (d.configNodes_stage hx).1
      simp_all [TagNode.stage]
    · cases hf : req.file <;> simp_all
  exact ⟨_, _, holds_pushAll_stage h hl hnodup hstage⟩

section

variable (lines : TagLines) (pkt : TagOptions)

theorem holds_nameNodes (h : s.Holds l tags) (hl : ∀ x ∈ l, x.stage < 2) :
    TagStack.Holds (s.pushAll (lines.nameNodes pkt))
    (((lines.nameNodes pkt).map Prod.fst).reverse ++ l)
      (lines.nameTags pkt ++ tags) :=
  holds_pushAll_stage h hl (nodup_matching fun _ _ => TagNode.nameMatch.inj)
    fun _ hx => ⟨(lines.nameNodes_stage pkt hx).1.ge, (lines.nameNodes_stage pkt hx).2⟩

theorem messageTags_holds (req : Request) (arrival : Arrival)
    (context : List ℕ) (config : Option ℕ) (h : s.Holds l tags) (hl : ∀ x ∈ l, x.stage < 2)
    (honce : ¬ (req.messageType.getD 0 = 0 ∧ !arrival.pxe) → config = none → TagNode.known ∈ l →
      (d.namedConfig context req (none, lines.nameTags pkt ++ tags)).1 = none) :
    ∃ t l' tags', d.messageTags lines pkt req arrival context config s = some t ∧
      TagStack.Holds t l' tags' := by
  unfold messageTags
  split
  · obtain ⟨l', tags', h'⟩ := d.bootpNodes_holds config req h fun x hx =>
      (hl x hx).trans (Nat.lt_succ_self 2)
    exact ⟨_, l', tags', rfl, h'⟩
  rename_i hdhcp
  have hname := holds_nameNodes lines pkt h hl
  have hstage : ∀ x ∈ ((lines.nameNodes pkt).map Prod.fst).reverse ++ l, x.stage < 3 :=
    fun x hx => by
    rcases mem_append.mp hx with hx | hx
    · have := (lines.nameNodes_stage pkt (mem_reverse.mp hx)).1
      omega
    · exact (hl x hx).trans (Nat.lt_succ_self 2)
  have hnew : TagNode.known ∈ ((lines.nameNodes pkt).map Prod.fst).reverse ++ l →
      TagNode.known ∈ l :=
    fun hm => (mem_append.mp hm).resolve_left fun hx => by
      simpa [TagNode.stage] using (lines.nameNodes_stage pkt (mem_reverse.mp hx)).1
  obtain ⟨t, l', ht, hholds, hl'⟩ := d.namedTag_spec context req config hname fun hc hm => by
    subst hc
    exact honce hdhcp rfl (hnew hm)
  refine ⟨_, _, _, by rw [ht, map_some], holds_pushAll_stage (k := 3) hholds (fun x hx => ?_)
    (d.nodup_configNodes _) fun x hx => ⟨(d.configNodes_stage hx).1.ge, (d.configNodes_stage hx).2⟩⟩
  rcases hl' x hx with rfl | hx
  · decide
  · exact hstage x hx

theorem messageTags_loops (req : Request) (arrival : Arrival)
    (context : List ℕ) (h : s.Holds l tags) (hl : ∀ x ∈ l, x.stage < 2)
    (hdhcp : ¬ (req.messageType.getD 0 = 0 ∧ !arrival.pxe)) (hknown : TagNode.known ∈ l)
    (hnamed : (d.namedConfig context req (none, lines.nameTags pkt ++ tags)).1.isSome) :
    ∃ t, d.messageTags lines pkt req arrival context none s = some t ∧ TagStack.Loops t := by
  have hname := holds_nameNodes lines pkt h hl
  obtain ⟨config, t, ht, hloops⟩ :=
    d.namedTag_loops context req hname (mem_append_right _ hknown) hnamed
  refine ⟨t.pushAll (d.configNodes config), ?_,
    hloops.pushAll _ fun x hx => (d.configNodes_stage hx).2⟩
  rw [messageTags, if_neg hdhcp, ht, map_some]

theorem holds_clientNodes (req : Request) (stale : TagNode → Option TagNode) :
    TagStack.Holds ((⟨stale, fun _ => [], none, 0⟩ : TagStack).pushAll (lines.clientNodes pkt req))
      ((lines.clientNodes pkt req).map Prod.fst).reverse (lines.clientTags pkt req) := by
  have hempty : TagStack.Holds ⟨stale, fun _ => [], none, 0⟩ [] [] := ⟨⟨rfl, le_rfl⟩, nofun, rfl⟩
  have hpushed := hempty.pushAll (lines.nodup_clientNodes pkt req) (fun _ _ => not_mem_nil)
    fun x hx => (lines.clientNodes_stage pkt req hx).2
  rwa [append_nil, append_nil] at hpushed

end

/-- The lists that `run_tag_if` and `match_netid` walk are free of circles, unless `known_id`
is pushed for another network and again for the name, and a tag is looked for after that. -/
theorem tagPass_isSome_iff (lines : TagLines) (pkt : TagOptions) (req : Request) (arrival : Arrival)
    (context : List ℕ) (stale : TagNode → Option TagNode) (uses : List TagUse) :
    (d.tagPass lines pkt req arrival context stale uses).isSome ↔
      ¬ (d.KnownTwice lines pkt req arrival context ∧ d.Searched uses) := by
  obtain ⟨s, l, hs, hholds, hl, hknown⟩ := d.knownTag_spec context (d.knownClid req) req
    (holds_clientNodes lines pkt req stale)
    fun x hx => (lines.clientNodes_stage pkt req (mem_reverse.mp hx)).1
  simp only [tagPass, hs, bind_some]
  by_cases htwice : d.KnownTwice lines pkt req arrival context
  · obtain ⟨hdhcp, hnone, hother, hnamed⟩ := id htwice
    obtain ⟨t, ht, hloops⟩ := d.messageTags_loops lines pkt req arrival context hholds hl hdhcp
      ((hknown hnone).mpr hother) hnamed
    rw [hnone, ht, bind_some, d.finish_loops uses hloops, and_iff_right htwice]
  obtain ⟨t, l', tags', ht, hholds'⟩ := d.messageTags_holds lines pkt req arrival context
    (d.knownConfig context (d.knownClid req) (req.withTags (lines.clientTags pkt req))).1 hholds hl
    fun hdhcp hnone hm => by
      by_contra hnamed
      exact htwice ⟨hdhcp, hnone, (hknown hnone).mp hm, isSome_iff_ne_none.mpr hnamed⟩
  rw [ht]
  exact iff_of_true (d.finish_isSome uses hholds') fun h => htwice h.1

/-- One network, a line that ties a hardware address to another network, and a line for the
name "a". -/
def oldAndNew : Daemon where
  db := .noLeases 10
  dhcp := [{ netmask := 0xffffff00, start := 0xc0a80064, stop := 0xc0a800c8 }]
  dhcpConf :=
    [{ hwaddr := [{ hwaddr := [2, 0, 0, 0, 0, 1], hwaddrType := 1 }], addr := some 0x0a000005 },
     { hostname := some [97] }]
  tagIf := [{ tag := [[98]], set := [[99]] }]

/-- That hardware address asks for an address with the name "a". -/
def moved : Request where
  chaddr := [2, 0, 0, 0, 0, 1]
  messageType := some dhcpdiscover
  hostname := some [97]

/-- `known_id` becomes its own successor, and the search for the tag of the rule never ends. -/
theorem tagPass_moved :
    oldAndNew.tagPass {} { ifaceName := [101] } moved { context := [0], now := 0 } [0]
    (fun _ => none) [] =
        none ∧
      (((oldAndNew.knownTag [0] none moved
          ((⟨fun _ => none, fun _ => [], none, 0⟩ : TagStack).pushAll [(.iface, [101])])).bind
          fun r =>
        oldAndNew.messageTags {} { ifaceName := [101] } moved { context := [0], now := 0 }
          [0] r.1 r.2).map fun s => (s.head, s.next .known)) = some (some .known, some .known) := by
  decide +kernel

end Daemon

end Dnsmasq.Dhcp
