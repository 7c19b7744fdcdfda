import Dnsmasq.Dhcp.TagOnce
import Dnsmasq.Dhcp6.Tags

/-!
The tag list while one client message is handled. The node of a class line is pushed once for every
string of the option that contains its data; all other nodes at most once.
-/
namespace Dnsmasq.Dhcp6

open List hiding Chain
open Lib Dhcp Function

namespace TagLines

variable (lines : TagLines) (c : Client)

theorem classNodes_eq : (lines.classNodes c).map Prod.fst =
    lines.dhcpVendors.zipIdx.flatMap fun x =>
    List.replicate ((c.classStrings x.1).filter (hasData x.1.data)).length
      (TagNode.vendor x.2) := by
  rw [classNodes, map_flatMap]
  refine flatMap_congr fun x _ => ?_
  rw [map_map]
  exact map_const'

theorem nodup_classNodes_iff : ((lines.classNodes c).map Prod.fst).Nodup ↔
    ∀ v ∈ lines.dhcpVendors, ((c.classStrings v).filter (hasData v.data)).length ≤ 1 := by
  rw [classNodes_eq, nodup_flatMap]
  constructor
  · rintro ⟨hnodup, -⟩ v hv
    obtain ⟨i, hi⟩ := mem_iff_getElem?.mp hv
    exact nodup_replicate.mp (hnodup (v, i) (mk_mem_zipIdx_iff_getElem?.mpr hi))
  intro honce
  refine ⟨fun x hx => nodup_replicate.mpr (honce x.1 ?_), ?_⟩
  · exact mem_of_getElem? (mem_zipIdx_iff_getElem?.mp hx)
  have hidx : (lines.dhcpVendors.zipIdx.map Prod.snd).Nodup := by
    rw [zipIdx_map_snd]
    exact nodup_range'
  refine (pairwise_map.mp hidx).imp fun hne y hy hy' => hne ?_
  exact TagNode.vendor.inj ((eq_of_mem_replicate hy).symm.trans (eq_of_mem_replicate hy'))

theorem mem_classNodes {x : TagNode} (h : x ∈ (lines.classNodes c).map Prod.fst) :
    ∃ i v, x = .vendor i ∧ lines.dhcpVendors[i]? = some v ∧ c.classStrings v ≠ [] := by
  rw [classNodes_eq] at h
  obtain ⟨⟨v, i⟩, hmem, hx⟩ := mem_flatMap.mp h
  refine ⟨i, v, eq_of_mem_replicate hx, mk_mem_zipIdx_iff_getElem?.mp hmem, fun hnone => ?_⟩
  simp [hnone] at hx

theorem mem_matchNodes {x : TagNode} (h : x ∈ (lines.matchNodes c).map Prod.fst) :
    ∃ i, x = .dhcpMatch i := by
  simp only [matchNodes, map_map, mem_map, comp_apply] at h
  obtain ⟨y, -, rfl⟩ := h
  exact ⟨y.2, rfl⟩

theorem nodup_matchNodes : ((lines.matchNodes c).map Prod.fst).Nodup := by
  have hidx : (lines.dhcpMatch6.zipIdx.map Prod.snd).Nodup := by
    rw [zipIdx_map_snd]
    exact nodup_range'
  have hsub := hidx.sublist ((filter_sublist (p := fun x : MatchLine × ℕ => c.isMatch x.2)).trans
    (takeWhile_sublist fun x : MatchLine × ℕ => !(x.1.rfc3925 && c.isMatch x.2)) |>.map Prod.snd)
  have hmap := hsub.map fun _ _ => TagNode.dhcpMatch.inj
  rw [map_map] at hmap
  rwa [matchNodes, map_map]

section

variable {x : TagNode} (h : x ∈ (lines.clientNodes c).map Prod.fst)
include h

theorem mem_clientNodes :
    (∃ i v, x = .vendor i ∧ lines.dhcpVendors[i]? = some v ∧ c.classStrings v ≠ []) ∨
      ∃ i, x = .dhcpMatch i ∨ x = .mac i ∨ x = .nameMatch i := by
  simp only [clientNodes, map_append, mem_append] at h
  rcases h with ((h | h) | h) | h
  · exact .inl (mem_classNodes lines c h)
  · obtain ⟨i, rfl⟩ := mem_matchNodes lines c h
    exact .inr ⟨i, .inl rfl⟩
  all_goals
    obtain ⟨i, -, rfl, -⟩ := mem_matching h
    exact .inr ⟨i, by simp⟩

theorem clientNodes_lasting :
    x.isTemporary = false ∧ x ∉ [TagNode.dhcpv6, .iface] ∧ x ≠ .known ∧ ∀ i j, x ≠ .config i j := by
  rcases lines.mem_clientNodes c h with ⟨i, -, rfl, -⟩ | ⟨i, rfl | rfl | rfl⟩ <;>
    exact ⟨rfl, by simp, nofun, fun _ _ => nofun⟩

end

theorem nodup_clientNodes_iff : ((lines.clientNodes c).map Prod.fst).Nodup ↔
    ((lines.classNodes c).map Prod.fst).Nodup := by
  simp only [clientNodes, map_append]
  refine ⟨fun h => h.sublist ?_, fun h => ?_⟩
  · rw [append_assoc, append_assoc]
    exact sublist_append_left _ _
  refine ((h.append (lines.nodup_matchNodes c) ?_).append (nodup_matching fun _ _ =>
    TagNode.mac.inj) ?_).append (nodup_matching fun _ _ => TagNode.nameMatch.inj) ?_
  all_goals intro x hx hx'
  · obtain ⟨i, rfl⟩ := mem_matchNodes lines c hx'
    obtain ⟨j, v, hvendor, -⟩ := mem_classNodes lines c hx
    cases hvendor
  all_goals
    obtain ⟨i, -, rfl, -⟩ := mem_matching hx'
    simp only [mem_append] at hx
  · rcases hx with hx | hx
    · obtain ⟨j, v, hvendor, -⟩ := mem_classNodes lines c hx
      cases hvendor
    · obtain ⟨j, hmatch⟩ := mem_matchNodes lines c hx
      cases hmatch
  rcases hx with (hx | hx) | hx
  · obtain ⟨j, v, hvendor, -⟩ := mem_classNodes lines c hx
    cases hvendor
  · obtain ⟨j, hmatch⟩ := mem_matchNodes lines c hx
    cases hmatch
  · obtain ⟨j, v, hmac, -⟩ := mem_matching hx
    cases hmac

end TagLines

open TagStack

theorem ne_context {x : TagNode} (hx : x.isTemporary = false) (i : ℕ) : x ≠ .context i := by
  rintro rfl
  cases hx

theorem keeps_push_context (s : TagStack) (p : Option TagNode) (i : ℕ) (tag : Tag) :
    Keeps s (((s.rebase p).push (.context i) tag).rebase s.head) where
  head := rfl
  node := fun _ hx => ⟨update_of_ne (ne_context hx i) _ _, update_of_ne (ne_context hx i) _ _⟩
  size := Nat.le_succ _

theorem keeps_marks (context : List ℕ) (s : TagStack) : Keeps s (context.foldl markContext s) := by
  induction context generalizing s with
  | nil => exact .refl s
  | cons i context ih =>
    have hmark : Keeps s (markContext s i) :=
      ⟨rfl, fun _ hx => ⟨update_of_ne (ne_context hx i) _ _, rfl⟩, le_rfl⟩
    exact hmark.trans (ih (markContext s i))

namespace Daemon

variable (d : Daemon) {m : Message} {a : Arrival} {s : TagStack} {l : List TagNode}
  {tags : List Tag}

theorem identifyClient_spec (a : Arrival) (h : s.Holds l m.tags) :
    ∃ t, d.identifyClient m a s = some (m.clid.bind fun clid =>
      d.findConfig a.context (some clid) (some a.mac) a.macType none (runTagIf d.tagIf m.tags), t) ∧
        Keeps s t := by
  unfold identifyClient
  cases m.clid with
  | none => exact ⟨s, rfl, .refl s⟩
  | some clid =>
    obtain ⟨t, ht, hkeeps⟩ := h.runTagIf d.tagIf d.filters
    exact ⟨t, by simp [ht], hkeeps⟩

theorem identifyTags_spec (a : Arrival) (h : s.Holds l m.tags) :
    ∃ t, d.identifyTags m a s = some (d.identify m a, t) ∧ Keeps s t := by
  obtain ⟨t, ht, hkeeps⟩ := d.identifyClient_spec a h
  simp only [identifyTags, identify, ht, Option.bind_some]
  cases (m.clid.bind fun clid => d.findConfig a.context (some clid) (some a.mac) a.macType none
      (runTagIf d.tagIf m.tags)) with
  | some i => exact ⟨t, rfl, hkeeps⟩
  | none =>
    cases m.hostname with
    | none => exact ⟨t, rfl, hkeeps⟩
    | some name =>
      obtain ⟨u, hu, hkeeps'⟩ := (h.keeps hkeeps).runTagIf d.tagIf d.filters
      exact ⟨u, by simp [hu], hkeeps.trans hkeeps'⟩

variable {x : TagNode} {t : TagStack} {p : Option TagNode} {contexts : List TagNode}

theorem mem_configNodes {config : Option ℕ} (h : x ∈ (d.configNodes config).map Prod.fst) :
    ∃ i j, x = .config i j := by
  unfold configNodes at h
  split at h
  · simp only [map_map, mem_map, comp_apply] at h
    obtain ⟨⟨t, j⟩, -, rfl⟩ := h
    exact ⟨_, j, rfl⟩
  · cases h

theorem nodup_configNodes (config : Option ℕ) : ((d.configNodes config).map Prod.fst).Nodup := by
  unfold configNodes
  split
  · rename_i i c _
    have hidx : (c.netid.zipIdx.map Prod.snd).Nodup := by
      rw [zipIdx_map_snd]
      exact nodup_range'
    have hmap := hidx.map (f := TagNode.config i) fun _ _ h => (TagNode.config.inj h).2
    rw [map_map] at hmap
    rwa [map_map]
  · exact nodup_nil

def SameVendors (s t : TagStack) : Prop := ∀ i, t.next (.vendor i) = s.next (.vendor i)

theorem sameVendors_pushAll (s : TagStack) {xs : List (TagNode × Tag)}
    (h : ∀ i, TagNode.vendor i ∉ xs.map Prod.fst) : SameVendors s (s.pushAll xs) :=
  fun i => (NodeStack.pushAll_next_of_notMem (h i)).1

theorem sameVendors_of_keeps (h : Keeps s t) : SameVendors s t := fun _ => (h.node _ rfl).1

theorem sameVendors_known (s : TagStack) (tag : Tag) : SameVendors s (s.push .known tag) :=
  @sameVendors_pushAll s [(.known, tag)] fun _ => by simp

theorem SameVendors.trans {u : TagStack} (h : SameVendors s t) (h' : SameVendors t u) :
    SameVendors s u :=
  fun i => (h' i).trans (h i)

theorem pushKnown_spec (a : Arrival) (h : s.Holds l m.tags) (hknown : TagNode.known ∉ l)
    (hconfig : ∀ i j, TagNode.config i j ∉ l) :
    ∃ t l', d.pushKnown m a (d.identify m a) s = some t ∧ t.Holds l' (d.knownTags m a) ∧
      (∀ x ∈ l, x ∈ l') ∧ SameVendors s t := by
  unfold pushKnown knownTags
  cases hline : d.config (d.identify m a) with
  | some c =>
    have hnew : ∀ x ∈ (d.configNodes (d.identify m a)).map Prod.fst, x ∉ l := fun x hx => by
      obtain ⟨i, j, rfl⟩ := d.mem_configNodes hx
      exact hconfig i j
    have hlast : ∀ x ∈ (d.configNodes (d.identify m a)).map Prod.fst, x.isTemporary = false :=
      fun x hx => by
      obtain ⟨i, j, rfl⟩ := d.mem_configNodes hx
      rfl
    have htags : (d.configNodes (d.identify m a)).map Prod.snd = c.netid := by
      obtain ⟨i, hi, -⟩ := Option.bind_eq_some_iff.mp hline
      simp only [configNodes, hline]
      simp [hi, comp_def]
    have hpushed := (h.pushAll (d.nodup_configNodes _) hnew hlast).push (x := .known) (fun hm => by
      rcases mem_append.mp hm with hm | hm
      · obtain ⟨i, j, hij⟩ := d.mem_configNodes (mem_reverse.mp hm)
        cases hij
      · exact hknown hm) rfl tagKnown
    rw [htags] at hpushed
    refine ⟨_, _, rfl, hpushed, fun x hx => mem_cons_of_mem _ (mem_append_right _ hx),
      (sameVendors_pushAll s fun i hm => ?_).trans (sameVendors_known _ _)⟩
    obtain ⟨i', j, hij⟩ := d.mem_configNodes hm
    cases hij
  | none =>
    cases m.clid with
    | none => exact ⟨s, l, rfl, h, fun _ => id, fun _ => rfl⟩
    | some clid =>
      obtain ⟨t, ht, hkeeps⟩ := h.runTagIf d.tagIf d.filters
      have htags := h.keeps hkeeps
      simp only [ht, Option.map_some, Option.any_some]
      split
      · exact ⟨_, _, rfl, htags.push hknown rfl tagKnownOthernet, fun _ => mem_cons_of_mem _,
          (sameVendors_of_keeps hkeeps).trans (sameVendors_known t _)⟩
      · exact ⟨t, l, rfl, htags, fun _ => id, sameVendors_of_keeps hkeeps⟩

/-- The list of the ranges, next to that of the client. -/
structure ContextList (s : TagStack) (p : Option TagNode) (contexts l : List TagNode) : Prop where
  chain : Chain s.next p contexts
  node : ∀ x ∈ contexts, ∃ i, x = .context i
  size : contexts.length + l.length ≤ s.size

theorem ContextList.notMem (h : ContextList s p contexts l)
    (hx : x.isTemporary = false) : x ∉ contexts := fun hm => by
  obtain ⟨i, rfl⟩ := h.node x hm
  cases hx

theorem getContextTag_spec (h : ContextList s p contexts l)
    (i : ℕ) : ∃ t q contexts', d.getContextTag (s, p) i = some (t, q) ∧
    ContextList t q contexts' l ∧ Keeps s t := by
  unfold getContextTag
  cases d.dhcp6[i]?.bind (·.netid) with
  | none => exact ⟨s, p, contexts, rfl, h, .refl s⟩
  | some tag =>
    dsimp only
    split
    · rename_i hself
      have hi : TagNode.context i ∉ contexts := fun hm => h.chain.next_ne_self hm hself
      have hlists : (s.rebase p).Lists contexts := ⟨h.chain, (Nat.le_add_right _ _).trans h.size⟩
      have hpush := hlists.push (b := tag) hi
      refine ⟨((s.rebase p).push (.context i) tag).rebase s.head, some (.context i),
        .context i :: contexts, by
          rw [hpush.labels_eq]; rfl, ⟨hpush.chain, ?_, ?_⟩, keeps_push_context s p i tag⟩
      · intro x hx
        rcases mem_cons.mp hx with rfl | hx
        · exact ⟨i, rfl⟩
        · exact h.node x hx
      · have := h.size
        simp only [length_cons, NodeStack.rebase, NodeStack.push]
        omega
    · exact ⟨s, p, contexts, rfl, h, .refl s⟩

theorem getContextTags_spec (uses : List ℕ) (h : ContextList s p contexts l) :
    ∃ t q contexts', uses.foldlM d.getContextTag (s, p) = some (t, q) ∧
      ContextList t q contexts' l ∧ Keeps s t := by
  induction uses generalizing s p contexts with
  | nil => exact ⟨s, p, contexts, rfl, h, .refl s⟩
  | cons i uses ih =>
    obtain ⟨t, q, contexts', ht, h', hkeeps⟩ := d.getContextTag_spec h i
    obtain ⟨u, q', contexts'', hu, h'', hkeeps'⟩ := ih h'
    exact ⟨u, q', contexts'', by rw [foldlM_cons, ht]; exact hu, h'', hkeeps.trans hkeeps'⟩

theorem onlyContextTag_spec (context : List ℕ) (hsize : l.length ≤ s.size) :
    ∃ t q contexts, d.onlyContextTag context s = (t, q) ∧ ContextList t q contexts l ∧
      Keeps s t := by
  have hnone : ContextList s none [] l := ⟨rfl, nofun, by simpa using hsize⟩
  unfold onlyContextTag
  split
  · rename_i i
    split
    · rename_i tag _
      have hempty : (s.rebase none).Lists [] := ⟨rfl, Nat.zero_le _⟩
      refine ⟨_, _, [.context i], rfl, ⟨(hempty.push (b := tag) not_mem_nil).chain, by simp, ?_⟩,
        keeps_push_context s none i tag⟩
      simp only [length_singleton, NodeStack.rebase, NodeStack.push]
      omega
    · exact ⟨s, none, [], rfl, hnone, .refl s⟩
  · exact ⟨s, none, [], rfl, hnone, .refl s⟩

variable {checks : List (List Tag)}

/-- Only the last node of the ranges' own list is linked anew. -/
theorem optionFilter_keeps (hc : ContextList s p contexts l)
    (h : d.optionFilter checks (s, p) = some t) : Keeps s t := by
  obtain ⟨⟨tags, u⟩, hu, h⟩ := Option.bind_eq_some_iff.mp h
  have hkeeps := runTagIf_keeps hu
  cases p with
  | none =>
    cases h
    exact hkeeps
  | some first =>
    obtain ⟨nodes, hnodes, h⟩ := Option.bind_eq_some_iff.mp h
    obtain ⟨last, hlast, h⟩ := Option.bind_eq_some_iff.mp h
    obtain ⟨⟨tags', v⟩, hv, rfl⟩ := Option.map_eq_some_iff.mp h
    have hkeeps' := runTagIf_keeps hv
    have hchain : Chain u.next (some first) contexts := hc.chain.congr fun x hx => by
      obtain ⟨i, rfl⟩ := hc.node x hx
      exact (runTagIf_frame hu rfl).1
    obtain rfl : nodes = contexts := (NodeStack.chain_of_walk hnodes).unique hchain
    refine hkeeps.trans ⟨hkeeps.head.symm, fun x hx => ?_, hkeeps'.size⟩
    have hne : x ≠ last := fun e => hc.notMem hx (e ▸ mem_of_getLast? hlast)
    exact ⟨(hkeeps'.node x hx).1.trans (update_of_ne hne _ _), (hkeeps'.node x hx).2⟩

theorem optionFilter_spec (checks : List (List Tag)) (h : s.Holds l tags)
    (hc : ContextList s p contexts l) : ∃ t, d.optionFilter checks (s, p) = some t := by
  obtain ⟨t, ht, hkeeps⟩ := h.runTagIf d.tagIf checks
  have htags := h.keeps hkeeps
  have hchain : Chain t.next p contexts := hc.chain.congr fun x hx => by
    obtain ⟨i, rfl⟩ := hc.node x hx
    exact (runTagIf_frame ht rfl).1
  simp only [optionFilter, ht, Option.bind_some]
  cases p with
  | none => exact ⟨t, rfl⟩
  | some first =>
    obtain ⟨init, last, rfl⟩ : ∃ init last, contexts = init ++ [last] := by
      rcases eq_nil_or_concat contexts with rfl | ⟨init, last, rfl⟩
      · cases hchain
      · exact ⟨init, last, concat_eq_append⟩
    have hsize : (init ++ [last]).length + l.length ≤ t.size := hc.size.trans hkeeps.size
    have hnodes : (t.rebase (some first)).nodes = some (init ++ [last]) :=
      NodeStack.walk_of_chain hchain ((Nat.le_add_right _ _).trans hsize)
    have hlast : last ∉ l := fun hm =>
      hc.notMem (h.lasting last hm) (mem_append_right _ mem_cons_self)
    have hlists : NodeStack.Lists
        ({ t with next := update t.next last t.head, head := some first } : TagStack)
        (init ++ last :: l) := by
      refine ⟨hchain.redirect htags.lists.chain hlast, ?_⟩
      simp only [length_append, length_cons, length_nil] at hsize ⊢
      omega
    have hrules : ∀ x ∈ init ++ last :: l, x.isTagIf = false := fun x hx => by
      rw [← singleton_append, ← append_assoc] at hx
      rcases mem_append.mp hx with hx | hx
      · obtain ⟨i, rfl⟩ := hc.node x hx
        rfl
      · exact isTagIf_of_lasting (h.lasting x hx)
    obtain ⟨u, hu⟩ := runTagIf_lists d.tagIf checks hlists hrules
    have hgetLast : (init ++ [last]).getLast? = some last := by simp
    exact ⟨u.rebase s.head, by simp only [hnodes, hgetLast, Option.bind_some, hu, Option.map_some]⟩

theorem useContexts_spec (c : Client) (hsize : l.length ≤ s.size) :
    ∃ t q contexts, (if c.message.type = .ireq then some (d.onlyContextTag c.arrival.context s)
      else c.uses.foldlM d.getContextTag (s, none)) = some (t, q) ∧ ContextList t q contexts l ∧
        Keeps s t := by
  split
  · obtain ⟨t, q, contexts, ht, h'⟩ := d.onlyContextTag_spec c.arrival.context hsize
    exact ⟨t, q, contexts, congrArg some ht, h'⟩
  · have hnone : ContextList s none [] l := ⟨rfl, nofun, by simpa using hsize⟩
    exact d.getContextTags_spec c.uses hnone

theorem useTags_keeps {c : Client} (h : d.useTags c s = some t) : Keeps s t := by
  obtain ⟨u, q, contexts, hu, hlist, hkeeps⟩ :=
    d.useContexts_spec (s := s) (l := []) c (Nat.zero_le _)
  simp only [useTags, hu, Option.bind_some] at h
  split at h
  · exact hkeeps.trans (d.optionFilter_keeps hlist h)
  · cases h
    exact hkeeps

theorem useTags_spec (c : Client) (h : s.Holds l tags) : ∃ t, d.useTags c s = some t := by
  obtain ⟨t, q, contexts, ht, hlist, hkeeps⟩ := d.useContexts_spec c h.lists.size
  simp only [useTags, ht, Option.bind_some]
  split
  · exact d.optionFilter_spec c.checks (h.keeps hkeeps) hlist
  · exact ⟨t, rfl⟩

end Daemon

open List Option Lib Dhcp TagStack

def clientsOf : List Step → List Client
  | [] => []
  | .stop :: _ => []
  | .relay _ :: steps => clientsOf steps
  | .client c :: steps => c :: clientsOf steps

namespace Daemon

/-- Every class line finds its data in one string at most, if the classes are looked at. -/
def ClassOnce (d : Daemon) (lines : TagLines) (c : Client) : Prop :=
  (!d.wanted c.message || c.usesUnicast) = false →
    ∀ v ∈ lines.dhcpVendors, ((c.classStrings v).filter (hasData v.data)).length ≤ 1

/-- There is no second client message, or the first is not answered, and its classes match
once. -/
def TagsOnce (d : Daemon) (lines : TagLines) (p : Packet) : Prop :=
  match clientsOf p.steps with
  | [] => True
  | c :: rest =>
    d.ClassOnce lines c ∧ (rest = [] ∨ (d.dhcp6NoRelay (lines.decoded c) c.arrival).1 = none)

variable {d : Daemon} {lines : TagLines} {c : Client} {s : TagStack} {l : List TagNode}
  {tags : List Tag}

def Marked (lines : TagLines) (s : TagStack) : Prop :=
  ∀ i v, lines.dhcpVendors[i]? = some v → ∀ header, matchesRelay v header = true →
    s.next (.vendor i) = some (.vendor i)

theorem classStrings_of_matchesRelay
    {v : Vendor} {header : RelayHeader} (h : matchesRelay v header = true)
    (c : Client) : c.classStrings v = [] := by
  unfold matchesRelay at h
  unfold Client.classStrings
  cases hv : v.matchType <;> simp_all

theorem relayTags_eq (h : Marked lines s) (header : RelayHeader) :
    lines.relayTags header s = s := by
  have hnone : (lines.dhcpVendors.zipIdx.find? fun x =>
      matchesRelay x.1 header && s.next (.vendor x.2) != some (.vendor x.2)) = none := by
    refine find?_eq_none.mpr fun x hx => ?_
    simp only [Bool.and_eq_true, bne_iff_ne, not_and, not_not]
    exact fun hm => h x.2 x.1 (mem_zipIdx_iff_getElem?.mp hx) header hm
  rw [TagLines.relayTags, hnone]

theorem holds_localNodes (c : Client) (hs : s.head = none) :
    TagStack.Holds (c.arrival.context.foldl markContext (s.pushAll (TagLines.localNodes c)))
    [.dhcpv6, .iface]
      [tagDhcpv6, c.ifaceName] := by
  have hempty : s.Holds [] [] := ⟨⟨hs, Nat.zero_le _⟩, nofun, rfl⟩
  have hiface : TagStack.Holds (s.push .iface c.ifaceName) [.iface] [c.ifaceName] :=
    hempty.push not_mem_nil rfl c.ifaceName
  have hlocal : TagStack.Holds ((s.push .iface c.ifaceName).push .dhcpv6 tagDhcpv6)
      [.dhcpv6, .iface] [tagDhcpv6, c.ifaceName] := hiface.push (by decide) rfl tagDhcpv6
  exact hlocal.keeps (keeps_marks c.arrival.context _)

theorem marked_localNodes (c : Client) (h : Marked lines s) :
    Marked lines (c.arrival.context.foldl markContext (s.pushAll (TagLines.localNodes c))) := by
  intro i v hv header hm
  have hvendors := (sameVendors_pushAll s (fun i => by simp [TagLines.localNodes])).trans
    (sameVendors_of_keeps (keeps_marks c.arrival.context (s.pushAll (TagLines.localNodes c))))
  exact (hvendors i).trans (h i v hv header hm)

theorem marked_clientNodes (c : Client) (h : Marked lines s) :
    Marked lines (s.pushAll (lines.clientNodes c)) := by
  intro i v hv header hm
  refine (NodeStack.pushAll_next_of_notMem fun hmem => ?_).1.trans (h i v hv header hm)
  rcases lines.mem_clientNodes c hmem with ⟨j, w, hj, hw, hstrings⟩ | ⟨j, hj | hj | hj⟩
  · cases hj
    cases hv.symm.trans hw
    exact hstrings (classStrings_of_matchesRelay hm c)
  all_goals cases hj

theorem noRelayTags_holds (hs : s.head = none) (hmarked : Marked lines s)
    (honce : d.ClassOnce lines c) :
    ∃ t l tags, d.noRelayTags lines c s = some t ∧ t.Holds l tags ∧ TagNode.iface ∈ l ∧
      Marked lines t := by
  have hlocal := holds_localNodes c hs
  have hmarked' := marked_localNodes c hmarked
  unfold noRelayTags
  split
  · exact ⟨_, _, _, rfl, hlocal, by simp, hmarked'⟩
  rename_i hguard
  have hnodup := (lines.nodup_clientNodes_iff c).mpr ((lines.nodup_classNodes_iff c).mpr
    (honce (Bool.eq_false_of_not_eq_true hguard)))
  have hclient := hlocal.pushAll hnodup (fun x hx => (lines.clientNodes_lasting c hx).2.1)
    fun x hx => (lines.clientNodes_lasting c hx).1
  have hnew : ∀ x, x ∈ ((lines.clientNodes c).map Prod.fst).reverse ++ [TagNode.dhcpv6, .iface] →
      x ≠ .known ∧ ∀ i j, x ≠ .config i j := fun x hx => by
    rcases mem_append.mp hx with hx | hx
    · exact (lines.clientNodes_lasting c (mem_reverse.mp hx)).2.2
    · simp only [mem_cons, not_mem_nil, or_false] at hx
      rcases hx with rfl | rfl <;> exact ⟨nofun, fun _ _ => nofun⟩
  obtain ⟨t, ht, hkeeps⟩ := d.identifyTags_spec (m := lines.decoded c) c.arrival hclient
  obtain ⟨u, l, hu, hknown, hsub, hvendors⟩ :=
    d.pushKnown_spec (m := lines.decoded c) c.arrival (hclient.keeps hkeeps)
    (fun hm => (hnew _ hm).1 rfl) fun i j hm => (hnew _ hm).2 i j rfl
  obtain ⟨v, hv, hkeeps'⟩ := hknown.runTagIf d.tagIf (d.dhcpIgnore ++ c.checks)
  obtain ⟨w, hw⟩ := d.useTags_spec c (hknown.keeps hkeeps')
  have hkeeps'' := d.useTags_keeps hw
  refine ⟨w, l, _, ?_, (hknown.keeps hkeeps').keeps hkeeps'', hsub _ (by simp),
    fun i x hx header hm => ?_⟩
  · simp only [ht, hu, hv, hw, bind_some]
  · have hsame := ((sameVendors_of_keeps hkeeps).trans hvendors).trans
      (sameVendors_of_keeps (hkeeps'.trans hkeeps''))
    exact (hsame i).trans (marked_clientNodes c hmarked' i x hx header hm)

variable {m : Message} {a : Arrival} {t : TagStack}

theorem identifyTags_keeps {r : Option ℕ × TagStack} (hr : d.identifyTags m a s = some r) :
    Keeps s r.2 := by
  obtain ⟨⟨config, t⟩, hfirst, hrest⟩ := bind_eq_some_iff.mp hr
  have hclient : Keeps s t := by
    unfold identifyClient at hfirst
    split at hfirst
    · cases hfirst
      exact .refl s
    · obtain ⟨⟨tags, u⟩, hu, heq⟩ := map_eq_some_iff.mp hfirst
      cases heq
      exact runTagIf_keeps hu
  dsimp only at hrest
  split at hrest
  · obtain ⟨⟨tags, u⟩, hu, rfl⟩ := map_eq_some_iff.mp hrest
    exact hclient.trans (runTagIf_keeps hu)
  · cases hrest
    exact hclient

theorem pushKnown_loops {config : Option ℕ} (h : s.Loops)
    (ht : d.pushKnown m a config s = some t) : t.Loops := by
  unfold pushKnown at ht
  split at ht
  · cases ht
    refine (h.pushAll _ fun x hx => ?_).push rfl _
    obtain ⟨i, j, rfl⟩ := d.mem_configNodes hx
    rfl
  split at ht
  · cases ht
    exact h
  · obtain ⟨⟨tags, u⟩, hu, rfl⟩ := map_eq_some_iff.mp ht
    have hloops := h.keeps (runTagIf_keeps hu)
    dsimp only
    split
    · exact hloops.push rfl _
    · exact hloops

theorem search_loops (h : s.Loops)
    (ht : ((d.identifyTags m a s).bind fun (config, s) => (d.pushKnown m a config s).bind fun s =>
      (s.runTagIf d.tagIf (d.dhcpIgnore ++ c.checks)).bind fun (_, s) => d.useTags c s) = some t) :
    t.Loops := by
  obtain ⟨⟨config, s₁⟩, h₁, ht⟩ := bind_eq_some_iff.mp ht
  obtain ⟨s₂, h₂, ht⟩ := bind_eq_some_iff.mp ht
  obtain ⟨⟨tags, s₃⟩, h₃, ht⟩ := bind_eq_some_iff.mp ht
  have hknown : TagStack.Loops s₂ := pushKnown_loops (h.keeps (identifyTags_keeps h₁)) h₂
  exact (hknown.keeps (runTagIf_keeps h₃)).keeps (d.useTags_keeps ht)

theorem noRelayTags_dup (hs : s.head = none) (honce : ¬ d.ClassOnce lines c)
    (ht : d.noRelayTags lines c s = some t) : t.Loops := by
  obtain ⟨hguard, hdup⟩ := Classical.not_imp.mp honce
  have hdup' : ¬ ((lines.clientNodes c).map Prod.fst).Nodup := fun h =>
    hdup ((lines.nodup_classNodes_iff c).mp ((lines.nodup_clientNodes_iff c).mp h))
  unfold noRelayTags at ht
  rw [if_neg (by rw [hguard]; exact Bool.false_ne_true)] at ht
  exact search_loops ((holds_localNodes c hs).loops_pushAll hdup'
    fun x hx => (lines.clientNodes_lasting c hx).1) ht

theorem noRelayTags_loops (h : TagStack.Loops (s.pushAll (TagLines.localNodes c)))
    (ht : d.noRelayTags lines c s = some t) : t.Loops := by
  have hlocal := h.keeps (keeps_marks c.arrival.context _)
  unfold noRelayTags at ht
  split at ht
  · cases ht
    exact hlocal
  · exact search_loops (hlocal.pushAll _ fun x hx => (lines.clientNodes_lasting c hx).1) ht

end Daemon

section Steps

open Daemon

variable {lines : TagLines} {d : Daemon} {s : TagStack} {l : List TagNode} {tags : List Tag}
  {steps : List Step} {c : Client} {r : Bool × Daemon × TagStack}

theorem loops_relayTags (h : s.Loops) (header : RelayHeader) :
    (lines.relayTags header s).Loops := by
  unfold TagLines.relayTags
  split
  · exact h.push rfl _
  · exact h

theorem localNodes_lasting (c : Client) : ∀ x ∈ (TagLines.localNodes c).map Prod.fst,
    x.isTemporary = false := by
  simp [TagLines.localNodes, TagNode.isTemporary]

theorem runSteps_client (h : runSteps lines (.client c :: steps) d s = some r) :
    ∃ t, d.noRelayTags lines c s = some t ∧
      (r.2.2 = t ∨ ∃ d', runSteps lines steps d' t = some r) := by
  obtain ⟨r', hr', h⟩ := bind_eq_some_iff.mp h
  obtain ⟨t, ht, rfl⟩ := map_eq_some_iff.mp hr'
  refine ⟨t, ht, ?_⟩
  split at h
  · exact .inr ⟨_, h⟩
  · cases h
    exact .inl rfl

theorem runSteps_loops (h : s.Loops) (hr : runSteps lines steps d s = some r) : r.2.2.Loops := by
  induction steps generalizing d s with
  | nil =>
    cases hr
    exact h
  | cons step steps ih =>
    cases step with
    | stop =>
      cases hr
      exact h
    | relay header => exact ih (loops_relayTags h header) hr
    | client c =>
      obtain ⟨t, ht, hr⟩ := runSteps_client hr
      have hloops := noRelayTags_loops (h.pushAll _ (localNodes_lasting c)) ht
      rcases hr with hr | ⟨d', hr⟩
      · exact hr ▸ hloops
      · exact ih hloops hr

/-- Once a client message has left a circle, the packet ends with one. -/
theorem runSteps_client_circular (h : ∀ t, d.noRelayTags lines c s = some t → t.Loops)
    (hr : runSteps lines (.client c :: steps) d s = some r) : r.2.2.Circular := by
  obtain ⟨t, ht, hr | ⟨d', hr⟩⟩ := runSteps_client hr
  · exact hr ▸ (h t ht).circular
  · exact (runSteps_loops (h t ht) hr).circular

theorem runSteps_after (h : s.Holds l tags) (hi : TagNode.iface ∈ l) (hm : Marked lines s)
    (steps : List Step) :
    (∃ r, runSteps lines steps d s = some r ∧ ¬ r.2.2.Circular) ↔ clientsOf steps = [] := by
  have hlist : ¬ s.Circular := fun hc => hc l h.lists.chain
  induction steps generalizing d with
  | nil => exact ⟨fun _ => rfl, fun _ => ⟨_, rfl, hlist⟩⟩
  | cons step steps ih =>
    cases step with
    | stop => exact ⟨fun _ => rfl, fun _ => ⟨_, rfl, hlist⟩⟩
    | relay header =>
      rw [runSteps, relayTags_eq hm]
      exact ih
    | client c =>
      refine ⟨fun ⟨r, hr, hlists⟩ => absurd ?_ hlists, nofun⟩
      have hpush : TagStack.Loops (s.pushAll (TagLines.localNodes c)) :=
        (h.loops_push hi c.ifaceName).push rfl tagDhcpv6
      exact runSteps_client_circular (fun _ => noRelayTags_loops hpush) hr

theorem runSteps_start (hs : s.head = none) (hm : Marked lines s) (steps : List Step) :
    (∃ r, runSteps lines steps d s = some r ∧ ¬ r.2.2.Circular) ↔ match clientsOf steps with
      | [] => True
      | c :: rest =>
        d.ClassOnce lines c ∧ (rest = [] ∨
          (d.dhcp6NoRelay (lines.decoded c) c.arrival).1 = none) := by
  have hempty : ¬ s.Circular := fun hc => hc [] hs
  induction steps generalizing d with
  | nil => exact ⟨fun _ => trivial, fun _ => ⟨_, rfl, hempty⟩⟩
  | cons step steps ih =>
    cases step with
    | stop => exact ⟨fun _ => trivial, fun _ => ⟨_, rfl, hempty⟩⟩
    | relay header =>
      rw [runSteps, relayTags_eq hm]
      exact ih
    | client c =>
      simp only [clientsOf]
      by_cases honce : d.ClassOnce lines c
      · obtain ⟨t, l, tags, ht, hholds, hi, hmarked⟩ := noRelayTags_holds hs hm honce
        have hlists : ¬ NodeStack.Circular t := fun hc => hc l hholds.lists.chain
        simp only [runSteps, clientTags, ht, map_some, bind_some, honce, true_and]
        cases hreply : (d.dhcp6NoRelay (lines.decoded c) c.arrival).1 with
        | none => exact ⟨fun _ => .inr rfl, fun _ => ⟨_, rfl, hlists⟩⟩
        | some reply =>
          simp only [isSome_some, if_true, reduceCtorEq, or_false]
          exact runSteps_after hholds hi hmarked steps
      · refine iff_of_false (fun ⟨r, hr, hlists⟩ => hlists ?_) fun h => honce h.1
        exact runSteps_client_circular (fun _ => noRelayTags_dup hs honce) hr

end Steps

/-- The tag list of a packet is free of circles and all searches of it come to an end, if and
only if one client message is answered at most and no class line finds its data twice. -/
theorem Daemon.dhcp6Reply_acyclic_iff
    (d : Daemon) (lines : TagLines) (p : Packet) (stale : TagNode → Option TagNode) :
    (∃ r, d.dhcp6Reply lines p stale = some r ∧ ¬ r.2.2.Circular) ↔ d.TagsOnce lines p := by
  rw [Daemon.dhcp6Reply, Packet.dhcp6MaybeRelay_eq]
  exact runSteps_start rfl (fun _ _ _ _ _ => rfl) p.steps

/-- A `dhcp-userclass` line for the string "a". -/
def userClassLines : TagLines where
  dhcpVendors := [{ matchType := .user, data := [97], netid := [116] }]

def twoClasses : Client where
  message := { type := .ireq, clid := some [1], clidNonempty := clid_one }
  arrival := { context := [0], now := 0, rounds := 1 }
  ifaceName := [101]
  userClass := some [[97], [97]]

/-- A rule that looks for the tag "b". -/
def classRange : Daemon where
  db := { leases := .empty, leasesLeft := 10 }
  dhcp6 := [sampleRange]
  tagIf := [{ tag := [[98]], set := [[99]] }]

/-- The node of the line becomes its own successor, and the search for the tag of the rule
never ends. -/
theorem dhcp6Reply_twoClasses :
    (classRange.dhcp6Reply userClassLines (.client twoClasses) fun _ => none).isNone = true ∧
      ((tagStart fun _ => none).pushAll
        (TagLines.localNodes twoClasses ++ userClassLines.clientNodes twoClasses)).next
        (.vendor 0) =
          some (.vendor 0) := by
  decide +kernel

end Dnsmasq.Dhcp6
