import Scorpio.Snapshot.AcceptedTree
import Scorpio.Snapshot.AcquisitionExact

/-!
# Fetching the pages of an accepted tree

A request names a directory, a route of labels and the id expected there. The
server may add the pages on the way to a requested page. The acquisition
accepts them because it remembers what stands at each route it has looked up.
With a server that answers every request for a page of the tree, and a cache
without I/O failures, fetching a batch succeeds and holds every page of it.
-/

set_option autoImplicit false

namespace Scorpio.RouteWitness

open ByteText Fallible PageCodec LogicalTree Incremental IncrementalInvariant AcceptedTree

/-! ## Places and answers -/

/-- The page at a route below a directory of the tree. -/
def PageAt (G : Graph) (f : Facts) (dir : Text) (route : Bytes) (id : Text) : Prop :=
  ∃ d ∈ f.dirs, dir = slash :: d.relPath ∧ routePage G d.directoryRoot route = some id

theorem page_at_unique {G : Graph} {f : Facts} (hnd : (f.dirs.map (·.relPath)).Nodup) {dir : Text}
    {route : Bytes} {id id' : Text} (h : PageAt G f dir route id) (h' : PageAt G f dir route id') :
    id = id' := by
  obtain ⟨d,hd,hdir,hroute⟩ := h
  obtain ⟨d',hd',hdir',hroute'⟩ := h'
  rw [hdir] at hdir'
  have hsame : d = d' :=
    Multiset.inj_on_of_nodup_map hnd d hd d' hd' (List.cons.inj hdir').2
  rw [← hsame, hroute] at hroute'
  exact Option.some.inj hroute'

/-- The cache and the server do not fail, every requested page of the tree is served, and nothing
is served that is not on the way to a requested page. -/
structure Serves (c : Codec) (G : Graph) (f : Facts) (out : Outside) : Prop where
  read : ∀ n id, ∃ r, out.read n id = .ok r
  put : ∀ n id b, out.put n id b = .ok ()
  lease : ∀ n, out.lease n = .ok ()
  serve : ∀ n items, items ≠ [] → (∀ it ∈ items, PageAt G f it.dir it.route it.expected) →
    ∃ l, out.serve n items = .ok l ∧ (∀ it ∈ items, ∃ p ∈ l, digest p.1 = it.expected) ∧
      ∀ p ∈ l, c.pageId p.2 = p.1 ∧
        ∃ it ∈ items, ∃ k ≤ it.route.length, PageAt G f it.dir (it.route.take k) (digest p.1)

/-- Bytes that are presented under the id of a page of the tree are that page. -/
def Agrees (c : Codec) (out : Outside) (G : Graph) : Prop :=
  ∀ b page, Seen out b → G (digest (c.pageId b)) = some page → decodePage c b = .ok page

/-! ## Routes -/

/-- The first `n` pages on a route are remembered. -/
def Routed (routeIds : Text → Bytes → Option Text) (dir : Text) (route : Bytes) (n : ℕ) : Prop :=
  ∀ k < n, ∃ id, routeIds dir (route.take k) = some id

def RoutesKnown (G : Graph) (f : Facts) (routeIds : Text → Bytes → Option Text) : Prop :=
  ∀ dir route id, routeIds dir route = some id → PageAt G f dir route id

structure RouteInv (G : Graph) (f : Facts) (w : Walk) : Prop where
  known : RoutesKnown G f w.routeIds
  placed : ∀ it ∈ w.batch ++ w.frontier, PageAt G f it.dir it.route it.expected
  frontier : ∀ it ∈ w.frontier, Routed w.routeIds it.dir it.route it.route.length
  batch : ∀ it ∈ w.batch, Routed w.routeIds it.dir it.route (it.route.length+1)
  held : ∀ it ∈ w.batch, ∃ b, w.byId it.expected = some b

theorem mem_allowed_ids {w : Walk} {items : List Item} {id : Text} : id ∈ allowedIds w items ↔
    ∃ it ∈ items, ∃ k ≤ it.route.length, w.routeIds it.dir (it.route.take k) = some id := by
  simp only [allowedIds, List.mem_flatMap, List.mem_filterMap, List.mem_range, Nat.lt_succ_iff]

/-! ## Fetching -/

section Fetch

variable {c : Codec} {reader : Reader} {out : Outside} {G : Graph} {f : Facts} {w : Walk}

theorem cached_page_total (hs : Serves c G f out) (n : ℕ) (id : Text) :
    ∃ r, cachedPage c out n id = .ok r := by
  obtain ⟨raw,hraw⟩ := hs.read n id
  unfold cachedPage
  rw [hraw, ok_bind]
  split
  · exact ⟨_,rfl⟩
  · exact ⟨_,rfl⟩

/-- The state of the first loop over a batch: what was looked up is routed, and held or requested. -/
structure LookedUp (G : Graph) (f : Facts) (queue batch : List Item) (acc : Walk × List Item)
    (rest : List Item) : Prop where
  known : RoutesKnown G f acc.1.routeIds
  routed : ∀ it ∈ queue, Routed acc.1.routeIds it.dir it.route it.route.length
  items : ∀ it ∈ acc.2, it ∈ batch ∧ ∃ id, acc.1.routeIds it.dir it.route = some id
  done : ∀ it ∈ batch, it ∈ rest ∨ ((∃ id, acc.1.routeIds it.dir it.route = some id) ∧
    ((∃ b, acc.1.byId it.expected = some b) ∨ it ∈ acc.2))
  rest : ∀ it ∈ rest, it ∈ batch

theorem PageAt.dir_valid (tree : WalkableTree c reader.scope G reader.metadataRoot f)
    {dir : Text} {route : Bytes} {id : Text} (h : PageAt G f dir route id) :
    validateRelativePath c reader.scope dir = .ok () := by
  obtain ⟨d,hd,rfl,_⟩ := h
  exact tree.dirs d hd

/-- Remembering one more place. -/
def remember (routeIds : Text → Bytes → Option Text) (it : Item) : Text → Bytes → Option Text :=
  fun dir route => if dir = it.dir ∧ route = it.route then some it.expected else routeIds dir route

theorem remember_self (routeIds : Text → Bytes → Option Text) (it : Item) :
    remember routeIds it it.dir it.route = some it.expected := if_pos ⟨rfl,rfl⟩

theorem remember_keeps {routeIds : Text → Bytes → Option Text} {dir : Text} {route : Bytes}
    (it : Item) (h : ∃ id, routeIds dir route = some id) :
    ∃ id, remember routeIds it dir route = some id := by
  unfold remember
  split
  · exact ⟨_,rfl⟩
  · exact h

theorem remember_known {routeIds : Text → Bytes → Option Text} {it : Item}
    (h : RoutesKnown G f routeIds) (hit : PageAt G f it.dir it.route it.expected) :
    RoutesKnown G f (remember routeIds it) := by
  intro dir route id hid
  unfold remember at hid
  split at hid
  · rename_i heq
    cases hid
    rw [heq.1, heq.2]
    exact hit
  · exact h dir route id hid

theorem lookup_item_live (tree : WalkableTree c reader.scope G reader.metadataRoot f)
    (hs : Serves c G f out) {queue batch : List Item}
    (hplaced : ∀ it ∈ batch, PageAt G f it.dir it.route it.expected) {acc : Walk × List Item}
    {it : Item} {rest : List Item} (h : LookedUp G f queue batch acc (it :: rest)) :
    ∃ acc', lookupItem c reader out acc it = .ok acc' ∧ LookedUp G f queue batch acc' rest := by
  obtain ⟨w,items⟩ := acc
  have hmem := h.rest it List.mem_cons_self
  have hat := hplaced it hmem
  have hdepth : it.route.length ≤ maxDepth := by
    obtain ⟨d,hd,_,hroute⟩ := hat
    exact tree.depth d hd it.route it.expected hroute
  -- whatever the cache says, the next state remembers the place of the item
  have hnext : ∀ w' items', w'.routeIds = remember w.routeIds it →
      (∀ id, (∃ b, w.byId id = some b) → ∃ b, w'.byId id = some b) →
      (∀ x ∈ items', x = it ∨ x ∈ items) → (∀ x ∈ items, x ∈ items') →
      ((∃ b, w'.byId it.expected = some b) ∨ it ∈ items') →
      LookedUp G f queue batch (w',items') rest := by
    intro w' items' hroutes hbyId hitems hkeep hfound
    constructor
    · change RoutesKnown G f w'.routeIds
      rw [hroutes]
      exact remember_known h.known hat
    · intro x hx k hk
      change ∃ id, w'.routeIds _ _ = some id
      rw [hroutes]
      exact remember_keeps it (h.routed x hx k hk)
    · intro x hx
      change x ∈ batch ∧ ∃ id, w'.routeIds x.dir x.route = some id
      rw [hroutes]
      rcases hitems x hx with rfl | hx
      · exact ⟨hmem,_,remember_self w.routeIds x⟩
      · obtain ⟨hb,hid⟩ := h.items x hx
        exact ⟨hb,remember_keeps it hid⟩
    · intro x hx
      change x ∈ rest ∨ ((∃ id, w'.routeIds x.dir x.route = some id) ∧ _)
      rw [hroutes]
      rcases h.done x hx with hrest | ⟨hid,hheld⟩
      · rcases List.mem_cons.mp hrest with rfl | hrest
        · exact .inr ⟨⟨_,remember_self w.routeIds x⟩,hfound⟩
        · exact .inl hrest
      · refine .inr ⟨remember_keeps it hid,?_⟩
        rcases hheld with hb | hi
        · exact .inl (hbyId _ hb)
        · exact .inr (hkeep x hi)
    · exact fun x hx => h.rest x (List.mem_cons_of_mem _ hx)
  unfold lookupItem
  have hreq : require (decide (it.route.length ≤ maxDepth))
      (limit "metadata radix depth exceeds 255") = .ok () := require_ok.mpr (decide_eq_true hdepth)
  rw [hat.dir_valid tree, ok_bind, hreq, ok_bind]
  cases hby : w.byId it.expected with
  | some b =>
    simp only
    exact ⟨_,rfl,hnext _ _ rfl (fun _ hb => hb) (fun x hx => .inr hx) (fun _ hx => hx)
      (.inl ⟨b,hby⟩)⟩
  | none =>
    simp only
    obtain ⟨cached,hcached⟩ := cached_page_total hs w.tick it.expected
    rw [hcached, ok_bind]
    cases cached with
    | some b =>
      refine ⟨_,rfl,hnext _ _ rfl ?_ (fun x hx => .inr hx) (fun _ hx => hx) (.inl ⟨b,?_⟩)⟩
      · rintro id ⟨b',hb'⟩
        by_cases hid : id = it.expected
        · subst hid
          exact ⟨b,Function.update_self ..⟩
        · exact ⟨b',by simp only [Function.update_of_ne hid]; exact hb'⟩
      · exact Function.update_self ..
    | none =>
      refine ⟨_,rfl,hnext _ _ rfl (fun _ hb => hb) ?_ ?_ ?_⟩
      · intro x hx
        rcases List.mem_append.mp hx with hx | hx
        · exact .inr hx
        · exact .inl (List.mem_singleton.mp hx)
      · exact fun x hx => List.mem_append_left _ hx
      · exact .inr (List.mem_append_right _ (List.mem_singleton.mpr rfl))

theorem receive_page_live (hs : Serves c G f out) {allowed : List Text} {p : Digest × Bytes}
    (hid : digest p.1 ∈ allowed) (hhash : c.pageId p.2 = p.1) (w : Walk) :
    receivePage c out allowed w p = .ok { w with
      byId := Function.update w.byId (digest p.1) (some p.2), tick := w.tick+1 } := by
  unfold receivePage
  have hreq : ∀ e : SnapshotError, require (decide (digest p.1 ∈ allowed ∧ c.pageId p.2 = p.1)) e =
      .ok () := fun e => require_ok.mpr (decide_eq_true ⟨hid,hhash⟩)
  simp only [hreq, ok_bind, hs.put]
  rfl

/-- Every served page is accepted and held. -/
theorem receive_pages_live (hs : Serves c G f out) {allowed : List Text}
    {l : List (Digest × Bytes)}
    (hl : ∀ p ∈ l, digest p.1 ∈ allowed ∧ c.pageId p.2 = p.1) (w : Walk) :
    ∃ w', l.foldlM (receivePage c out allowed) w = .ok w' ∧ w'.routeIds = w.routeIds ∧
      (∀ id, (∃ b, w.byId id = some b) → ∃ b, w'.byId id = some b) ∧
      ∀ p ∈ l, ∃ b, w'.byId (digest p.1) = some b := by
  induction l generalizing w with
  | nil => exact ⟨w,rfl,rfl,fun _ h => h,by simp⟩
  | cons p l ih =>
    obtain ⟨hid,hhash⟩ := hl p List.mem_cons_self
    obtain ⟨w',hrun,hroutes,hkeep,hheld⟩ := ih (fun p hp => hl p (List.mem_cons_of_mem _ hp))
      { w with byId := Function.update w.byId (digest p.1) (some p.2), tick := w.tick+1 }
    have hnew : ∀ id, (∃ b, w.byId id = some b) ∨ id = digest p.1 →
        ∃ b, w'.byId id = some b := by
      intro id h
      refine hkeep id ?_
      by_cases heq : id = digest p.1
      · exact ⟨p.2,by simp [heq]⟩
      · obtain ⟨b,hb⟩ := h.resolve_right heq
        exact ⟨b,by simp [Function.update_of_ne heq, hb]⟩
    refine ⟨w',?_,hroutes,fun id h => hnew id (.inl h),?_⟩
    · rw [List.foldlM_cons, receive_page_live hs hid hhash, ok_bind]
      exact hrun
    · intro p' hp'
      rcases List.mem_cons.mp hp' with rfl | hp'
      · exact hnew _ (.inr rfl)
      · exact hheld p' hp'

theorem request_pages_live (hs : Serves c G f out) (hnd : (f.dirs.map (·.relPath)).Nodup)
    {items : List Item} (hitems : ∀ it ∈ items, PageAt G f it.dir it.route it.expected)
    (hknown : RoutesKnown G f w.routeIds)
    (hrouted : ∀ it ∈ items, Routed w.routeIds it.dir it.route (it.route.length+1)) :
    ∃ w', requestPages c out w items = .ok w' ∧ w'.routeIds = w.routeIds ∧
      (∀ id, (∃ b, w.byId id = some b) → ∃ b, w'.byId id = some b) ∧
      ∀ it ∈ items, ∃ b, w'.byId it.expected = some b := by
  by_cases hne : items = []
  · subst hne
    exact ⟨w,rfl,rfl,fun _ h => h,by simp⟩
  · obtain ⟨l,hl,hserved,hroute⟩ := hs.serve w.tick items hne hitems
    -- an id served for a route is the id remembered for that route
    have hallowed : ∀ p ∈ l, digest p.1 ∈ allowedIds w items ∧ c.pageId p.2 = p.1 := by
      intro p hp
      obtain ⟨hhash,it,hit,k,hk,hat⟩ := hroute p hp
      obtain ⟨id,hid⟩ := hrouted it hit k (Nat.lt_succ_of_le hk)
      have hsame := page_at_unique hnd (hknown _ _ _ hid) hat
      exact ⟨mem_allowed_ids.mpr ⟨it,hit,k,hk,hsame ▸ hid⟩,hhash⟩
    obtain ⟨w',hrun,hroutes,hkeep,hheld⟩ := receive_pages_live hs hallowed
      { w with tick := w.tick+1 }
    refine ⟨w',?_,hroutes,hkeep,?_⟩
    · unfold requestPages
      rw [if_neg hne, hs.lease, ok_bind, hl, ok_bind]
      exact hrun
    · intro it hit
      obtain ⟨p,hp,hid⟩ := hserved it hit
      exact hid ▸ hheld p hp

theorem fetch_live (tree : WalkableTree c reader.scope G reader.metadataRoot f)
    (hs : Serves c G f out) (h : RouteInv G f w) :
    ∃ w', fetchBatch c reader out w = .ok w' ∧ RouteInv G f w' := by
  have hfrontier : ∀ it ∈ w.frontier, PageAt G f it.dir it.route it.expected := fun it hit =>
    h.placed it (List.mem_append_right _ hit)
  have htake : ∀ it ∈ w.frontier.take pageBatch, it ∈ w.frontier := fun it hit =>
    List.mem_of_mem_take hit
  have hstart : LookedUp G f w.frontier (w.frontier.take pageBatch) ({ w with
      frontier := w.frontier.drop pageBatch
      batch := w.frontier.take pageBatch
      byId := fun _ => none },[]) (w.frontier.take pageBatch) :=
    ⟨h.known,h.frontier,by simp,fun _ hit => .inl hit,
      fun _ hit => hit⟩
  obtain ⟨⟨w₁,items⟩,hlookup,hlooked⟩ := foldlM_total (lookupItem c reader out)
    (LookedUp G f w.frontier (w.frontier.take pageBatch))
    (fun _ _ _ hacc => lookup_item_live tree hs (fun it hit => hfrontier it (htake it hit)) hacc)
    _ hstart
  have hfull : ∀ it ∈ w.frontier.take pageBatch, (∃ id, w₁.routeIds it.dir it.route = some id) →
      Routed w₁.routeIds it.dir it.route (it.route.length+1) := by
    intro it hit hid k hk
    rcases Nat.lt_succ_iff_lt_or_eq.mp hk with hk | rfl
    · exact hlooked.routed it (htake it hit) k hk
    · rw [List.take_length]
      exact hid
  obtain ⟨w',hrequest,hroutes,hkeep,hheld⟩ := request_pages_live hs tree.paths
    (fun it hit => hfrontier it (htake it (hlooked.items it hit).1)) hlooked.known
    (fun it hit => hfull it (hlooked.items it hit).1 (hlooked.items it hit).2)
  have hrun : fetchBatch c reader out w = .ok w' := by
    unfold fetchBatch
    simp only [hlookup, ok_bind]
    exact hrequest
  obtain ⟨⟨_,hf,hb,_,_,_⟩,_⟩ := fetch_ok hrun
  have hf : w'.frontier = w.frontier.drop pageBatch := hf
  have hb : w'.batch = w.frontier.take pageBatch := hb
  refine ⟨w',hrun,?_,?_,?_,?_,?_⟩
  · rw [hroutes]
    exact hlooked.known
  · rw [hb, hf, List.take_append_drop]
    exact hfrontier
  · intro it hit
    rw [hf] at hit
    rw [hroutes]
    exact hlooked.routed it (List.mem_of_mem_drop hit)
  · intro it hit
    rw [hb] at hit
    rw [hroutes]
    rcases hlooked.done it hit with hnil | ⟨hid,_⟩
    · cases hnil
    · exact hfull it hit hid
  · intro it hit
    rw [hb] at hit
    rcases hlooked.done it hit with hnil | ⟨_,hb | hi⟩
    · cases hnil
    · exact hkeep _ hb
    · exact hheld it hi

end Fetch

end Scorpio.RouteWitness
