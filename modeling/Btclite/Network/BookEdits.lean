import Btclite.Library.Loops
import Btclite.Network.AddressBook

/-!
# Edits of the address book

Whatever a call makes of a book, it makes by a few edits: a peer is changed where it is, taken
out or put in under its key, the slots change, the order is shuffled, or the book is emptied.
What each edit keeps is kept by any calls that return, whether or not two addresses have the
same key.
-/

namespace BookEdits

open Loops Relation Endian Serialize Address Tables Peers Runs AddressBook

inductive Edit where
  | change (k : U64) (p : Peer)
  | slots (newTbl triedTbl : AList fun _ : U64 => U64)
  | erase (k : U64)
  | insert (p : Peer)
  | shuffle (order : List U64)
  | clear

section Editing

variable (sha256 : List Byte → Hash256) (s : Book)

def Edit.apply : Edit → Book
  | change k p => s.setMapPeers (s.mapPeers.insert k p)
  | slots newTbl triedTbl => (s.setNewTbl newTbl).setTriedTbl triedTbl
  | erase k => s.erasePeer k
  | insert p => { s.setMapPeers (s.mapPeers.insert (Book.mapKeyOf sha256 s.key p.addr.ip) p) with
      randOrderKeys := s.randOrderKeys ++ [Book.mapKeyOf sha256 s.key p.addr.ip] }
  | shuffle order => { s with randOrderKeys := order }
  | clear => s.clear

/-- A peer that changes stays at its address, and one that comes can be routed to. -/
def Edit.Valid : Edit → Prop
  | change k p => ∃ q, s.mapPeers.lookup k = some q ∧ p.addr.ip = q.addr.ip
  | insert p => p.addr.isRoutable = true ∧ Book.mapKeyOf sha256 s.key p.addr.ip ∉ s.mapPeers
  | shuffle order => order.Perm s.randOrderKeys
  | _ => True

abbrev Edits : Book → Book → Prop :=
  Run (fun s (e : Edit) s' => e.apply sha256 s = s') fun s e => e.Valid sha256 s

/-- Peers that change where they are, and nothing else. -/
abbrev Changes : Book → Book → Prop :=
  Run (fun s (c : U64 × Peer) s' => s.setMapPeers (s.mapPeers.insert c.1 c.2) = s')
    fun s c => ∃ q, s.mapPeers.lookup c.1 = some q ∧ c.2.addr.ip = q.addr.ip

end Editing

section Cases

variable {sha256 : List Byte → Hash256} {s s' : Book} {k g : U64} {addr source : NetAddr}

theorem updatePeer_ok {f : Peer → Peer} (h : s.updatePeer k f = .ok s') :
    ∃ p, s.mapPeers.lookup k = some p ∧ s' = s.setMapPeers (s.mapPeers.insert k (f p)) := by
  obtain ⟨p, hp, rfl⟩ := map_eq_ok.mp h
  refine ⟨p, ?_, rfl⟩
  rw [Book.peerAt] at hp
  cases hlookup : s.mapPeers.lookup k with
  | some q =>
    rw [hlookup] at hp
    cases hp
    rfl
  | none =>
    rw [hlookup] at hp
    cases hp

theorem updatePeer_run {f : Peer → Peer} {p : Peer} (hp : s.mapPeers.lookup k = some p) :
    s.updatePeer k f = .ok (s.setMapPeers (s.mapPeers.insert k (f p))) := by
  rw [Book.updatePeer, Book.peerAt_ok hp]
  rfl

theorem updatePeer_changes {f : Peer → Peer} (h : s.updatePeer k f = .ok s')
    (hf : ∀ p, (f p).addr.ip = p.addr.ip) : Changes s s' := by
  obtain ⟨p, hp, rfl⟩ := updatePeer_ok h
  exact Run.single (a := (k, f p)) ⟨p, hp, hf p⟩ rfl

theorem refresh_changes {p : Peer} {timePenalty now : I64}
    (h : s.refresh k p addr timePenalty now = .ok s') : Changes s s' := by
  rw [Book.refresh] at h
  split_ifs at h
  · obtain ⟨s₁, h₁, h₂⟩ := bind_eq_ok.mp h
    have hfirst : Changes s s₁ := updatePeer_changes h₁ fun _ => rfl
    exact hfirst.trans (updatePeer_changes h₂ fun _ => rfl)
  · exact updatePeer_changes h fun _ => rfl

theorem updateKnown_changes {f : Peer → Peer} {r : Bool × Book}
    (h : s.updateKnown sha256 addr f = .ok r) (hf : ∀ p, (f p).addr.ip = p.addr.ip) :
    Changes s r.2 := by
  rw [Book.updateKnown] at h
  split at h
  · cases h
    exact ReflTransGen.refl
  · split_ifs at h with hother
    · cases h
      exact ReflTransGen.refl
    · obtain ⟨s₁, h₁, h₂⟩ := bind_eq_ok.mp h
      cases h₂
      exact updatePeer_changes h₁ hf

/-- A known peer that is terrible goes, with the slot that it has, and any other one stays. -/
theorem addKnown_cases {p : Peer} {isNew isTried : Bool} {timePenalty now nowOnline : I64}
    (h : s.addKnown k g (p, isNew, isTried) addr timePenalty now nowOnline = .ok s') :
    (isTerriblePeer p now = true ∧ s' = (if isNew then s.setNewTbl (s.newTbl.erase g)
      else if isTried then s.setTriedTbl (s.triedTbl.erase g) else s).erasePeer k) ∨
      (isTerriblePeer p now = false ∧ Changes s s') := by
  rw [Book.addKnown] at h
  cases hterrible : isTerriblePeer p now with
  | true =>
    rw [hterrible] at h
    cases h
    exact .inl ⟨rfl, rfl⟩
  | false =>
    simp only [hterrible, Bool.false_eq_true, if_false] at h
    split_ifs at h
    · cases h
      exact .inr ⟨rfl, ReflTransGen.refl⟩
    · exact .inr ⟨rfl, refresh_changes h⟩

/-- An address that cannot be routed to is left out, one that is there is looked at again, and
room is made for any other one. -/
theorem add_cases {timePenalty now nowOnline : I64} {r : Bool × Book}
    (h : s.add sha256 addr source timePenalty now nowOnline = .ok r) :
    (addr.isRoutable = false ∧ r.2 = s) ∨ (addr.isRoutable = true ∧
      ((∃ p penalty, s.mapPeers.lookup (s.makeMapKey sha256 addr false) = some p ∧
          s.addKnown (s.makeMapKey sha256 addr false) (s.makeMapKey sha256 addr true)
            (p, s.newTbl.lookup (s.makeMapKey sha256 addr true) ==
                some (s.makeMapKey sha256 addr false),
              s.triedTbl.lookup (s.makeMapKey sha256 addr true) ==
                some (s.makeMapKey sha256 addr false)) addr penalty now nowOnline = .ok r.2) ∨
        (s.makeMapKey sha256 addr false ∉ s.mapPeers ∧
          ∃ room, s.makeRoom (s.makeMapKey sha256 addr true) now = .ok room ∧
            r.2 = room.2.addNewPeer (s.makeMapKey sha256 addr false)
              (s.makeMapKey sha256 addr true) room.1 addr source))) := by
  simp only [Book.add] at h
  cases hroutable : addr.isRoutable with
  | false =>
    rw [hroutable] at h
    cases h
    exact .inl ⟨rfl, rfl⟩
  | true =>
    rw [hroutable] at h
    refine .inr ⟨rfl, ?_⟩
    cases hp : s.mapPeers.lookup (s.makeMapKey sha256 addr false) with
    | some p =>
      simp only [Book.find, hp, Option.map_some] at h
      obtain ⟨s₁, hknown, h⟩ := bind_eq_ok.mp h
      cases h
      exact .inl ⟨p, _, rfl, hknown⟩
    | none =>
      simp only [Book.find, hp, Option.map_none] at h
      obtain ⟨room, hroom, h⟩ := bind_eq_ok.mp h
      cases h
      exact .inr ⟨AList.lookup_eq_none.mp hp, room, hroom, rfl⟩

theorem addAll_cons {a : NetAddr × I64 × I64} {timePenalty : I64}
    {rest : List (NetAddr × I64 × I64)} {r : Bool × Book}
    (h : Book.addAll sha256 source timePenalty s (a :: rest) = .ok r) : ∃ first last,
      s.add sha256 a.1 source timePenalty a.2.1 a.2.2 = .ok first ∧
      Book.addAll sha256 source timePenalty first.2 rest = .ok last ∧ r.2 = last.2 := by
  obtain ⟨first, h₁, h⟩ := bind_eq_ok.mp h
  obtain ⟨last, h₂, h⟩ := bind_eq_ok.mp h
  cases h
  exact ⟨first, last, h₁, h₂, rfl⟩

/-- A peer that was connected to changes, and may then take the slot of its group over. -/
theorem makeTried_cases {time : I64} {r : Bool × Book}
    (h : s.makeTried sha256 addr time = .ok r) : ∃ s₁, Changes s s₁ ∧
      (r.2 = s₁ ∨ r.2 = (s₁.setTriedTbl (insertNew (s.makeMapKey sha256 addr true)
        (s.makeMapKey sha256 addr false) s₁.triedTbl)).setNewTbl
          (s₁.newTbl.erase (s.makeMapKey sha256 addr true))) := by
  rw [Book.makeTried] at h
  split at h
  · cases h
    exact ⟨s, ReflTransGen.refl, .inl rfl⟩
  · split_ifs at h with hother htried
    · cases h
      exact ⟨s, ReflTransGen.refl, .inl rfl⟩
    · obtain ⟨s₁, h₁, h₂⟩ := bind_eq_ok.mp h
      cases h₂
      exact ⟨s₁, updatePeer_changes h₁ fun _ => rfl, .inl rfl⟩
    · obtain ⟨s₁, h₁, h₂⟩ := bind_eq_ok.mp h
      cases h₂
      exact ⟨s₁, updatePeer_changes h₁ fun _ => rfl, .inr rfl⟩

end Cases

section Calls

variable {sha256 : List Byte → Hash256} {s s' : Book} {k g : U64} {addr source : NetAddr}

theorem edit (e : Edit) (hv : e.Valid sha256 s) : Edits sha256 s (e.apply sha256 s) :=
  Run.single hv rfl

theorem Changes.edits (h : Changes s s') : Edits sha256 s s' :=
  Run.simulates (f := id) (fun _ c _ hvalid hrun => Run.single (a := .change c.1 c.2) hvalid hrun) h

theorem eraseNew_edits (g : U64) : Edits sha256 s (s.setNewTbl (s.newTbl.erase g)) :=
  edit (.slots (s.newTbl.erase g) s.triedTbl) trivial

theorem eraseTried_edits (g : U64) : Edits sha256 s (s.setTriedTbl (s.triedTbl.erase g)) :=
  edit (.slots s.newTbl (s.triedTbl.erase g)) trivial

theorem erasePeer_edits (k : U64) : Edits sha256 s (s.erasePeer k) := edit (.erase k) trivial

theorem addKnown_edits {p : Peer} {isNew isTried : Bool} {timePenalty now nowOnline : I64}
    (h : s.addKnown k g (p, isNew, isTried) addr timePenalty now nowOnline = .ok s') :
    Edits sha256 s s' := by
  obtain ⟨-, rfl⟩ | ⟨-, hchanges⟩ := addKnown_cases h
  · split_ifs
    · exact (eraseNew_edits g).trans (erasePeer_edits k)
    · exact (eraseTried_edits g).trans (erasePeer_edits k)
    · exact erasePeer_edits k
  · exact Changes.edits hchanges

/-- Room is made by taking peers out. -/
theorem makeRoom_edits (sha256 : List Byte → Hash256) {now : I64} {r : Bool × Book}
    (h : s.makeRoom g now = .ok r) :
    Edits sha256 s r.2 ∧ r.2.key = s.key ∧ ∀ k, k ∉ s.mapPeers → k ∉ r.2.mapPeers := by
  have hkept : s.key = s.key ∧ ∀ k, k ∉ s.mapPeers → k ∉ s.mapPeers := ⟨rfl, fun _ hk => hk⟩
  obtain ⟨_ | ⟨p, isTried, k⟩, -, hrest⟩ := bind_eq_ok.mp h
  · cases hrest
    exact ⟨ReflTransGen.refl, hkept⟩
  · dsimp only at hrest
    split_ifs at hrest with hterrible htried
    · cases hrest
      exact ⟨(eraseTried_edits g).trans (erasePeer_edits k), rfl,
        fun k' hk' hmem => hk' (AList.mem_erase.mp hmem).2⟩
    · cases hrest
      exact ⟨(eraseNew_edits g).trans (erasePeer_edits k), rfl,
        fun k' hk' hmem => hk' (AList.mem_erase.mp hmem).2⟩
    · cases hrest
      exact ⟨ReflTransGen.refl, hkept⟩

theorem addNewPeer_edits {addNew : Bool} (hroutable : addr.isRoutable = true)
    (hk : Book.mapKeyOf sha256 s.key addr.ip ∉ s.mapPeers) :
    Edits sha256 s
      (s.addNewPeer (Book.mapKeyOf sha256 s.key addr.ip) g addNew addr source) := by
  have hinsert := edit (.insert { addr, source, attempts := 0 }) ⟨hroutable, hk⟩
  rw [Book.addNewPeer, insertNew_of_notMem hk]
  cases addNew with
  | false => exact hinsert
  | true => exact hinsert.trans (edit (.slots (insertNew g _ s.newTbl) s.triedTbl) trivial)

theorem add_edits {timePenalty now nowOnline : I64} {r : Bool × Book}
    (h : s.add sha256 addr source timePenalty now nowOnline = .ok r) : Edits sha256 s r.2 := by
  obtain ⟨-, hr⟩ | ⟨hroutable, ⟨p, penalty, -, hknown⟩ | ⟨hk, room, hrun, hr⟩⟩ := add_cases h
  · rw [hr]
  · exact addKnown_edits hknown
  · obtain ⟨hroom, hkey, hkept⟩ := makeRoom_edits sha256 hrun
    have hk := hkept _ hk
    rw [Book.makeMapKey_false, ← hkey] at hk
    rw [hr, Book.makeMapKey_false, ← hkey]
    exact hroom.trans (addNewPeer_edits hroutable hk)

theorem addAll_edits {timePenalty : I64} {addrs : List (NetAddr × I64 × I64)} {r : Bool × Book}
    (h : Book.addAll sha256 source timePenalty s addrs = .ok r) : Edits sha256 s r.2 := by
  induction addrs generalizing s r with
  | nil =>
    cases h
    exact ReflTransGen.refl
  | cons a rest ih =>
    obtain ⟨first, last, hfirst, hrest, hr⟩ := addAll_cons h
    rw [hr]
    exact (add_edits hfirst).trans (ih hrest)

theorem makeTried_edits {time : I64} {r : Bool × Book}
    (h : s.makeTried sha256 addr time = .ok r) : Edits sha256 s r.2 := by
  obtain ⟨s₁, hchanges, hr | hr⟩ := makeTried_cases h
  · rw [hr]
    exact Changes.edits hchanges
  · rw [hr]
    refine (Changes.edits hchanges).trans ?_
    exact edit (.slots (s₁.newTbl.erase _) (insertNew _ _ s₁.triedTbl)) trivial

theorem getAddrs_edits {order : List U64} {now : Nat → I64} {r : List NetAddr × Book}
    (horder : order.Perm s.randOrderKeys) (h : s.getAddrs order now = .ok r) :
    Edits sha256 s r.2 := by
  obtain ⟨out, -, h⟩ := bind_eq_ok.mp h
  cases h
  exact edit (.shuffle order) horder

/-- A call that returns has only made edits. -/
theorem call_edits {U : Set IpAddr} {c : Call} (hallowed : c.Allowed U s)
    (h : c.run sha256 s = .ok s') : Edits sha256 s s' := by
  cases c with
  | add addr source timePenalty now nowOnline =>
    obtain ⟨r, hr, rfl⟩ := map_eq_ok.mp h
    exact add_edits hr
  | addAll addrs source timePenalty =>
    obtain ⟨r, hr, rfl⟩ := map_eq_ok.mp h
    exact addAll_edits hr
  | makeTried addr time =>
    obtain ⟨r, hr, rfl⟩ := map_eq_ok.mp h
    exact makeTried_edits hr
  | setServices addr services =>
    obtain ⟨r, hr, rfl⟩ := map_eq_ok.mp h
    exact Changes.edits (updateKnown_changes hr fun _ => rfl)
  | attempt addr time =>
    obtain ⟨r, hr, rfl⟩ := map_eq_ok.mp h
    exact Changes.edits (updateKnown_changes hr fun _ => rfl)
  | updateTime addr time =>
    obtain ⟨r, hr, rfl⟩ := map_eq_ok.mp h
    refine Changes.edits (updateKnown_changes hr fun p => ?_)
    split_ifs <;> rfl
  | select newOnly coin randPos =>
    obtain ⟨r, -, rfl⟩ := map_eq_ok.mp h
    exact ReflTransGen.refl
  | getAddrs order now =>
    obtain ⟨r, hr, rfl⟩ := map_eq_ok.mp h
    exact getAddrs_edits hallowed hr
  | clear =>
    cases h
    exact edit .clear trivial

end Calls

section Invariant

variable (sha256 : List Byte → Hash256) (key : Hash256)

/-- Every peer can be routed to and is under the key of its address, and the order has each
key once. -/
structure Kept (s : Book) : Prop where
  key_eq : s.key = key
  routable : ∀ k p, s.mapPeers.lookup k = some p → p.addr.isRoutable = true
  filed : ∀ k p, s.mapPeers.lookup k = some p → Book.mapKeyOf sha256 key p.addr.ip = k
  nodup : s.randOrderKeys.Nodup
  order : ∀ k, k ∈ s.randOrderKeys ↔ k ∈ s.mapPeers

variable {sha256 key} {s s' : Book} {k : U64} {p q : Peer}

theorem Kept.change (h : Kept sha256 key s) (hq : s.mapPeers.lookup k = some q)
    (hip : p.addr.ip = q.addr.ip) :
    Kept sha256 key (s.setMapPeers (s.mapPeers.insert k p)) := by
  have hlookup : ∀ k' r, (s.mapPeers.insert k p).lookup k' = some r →
      ∃ r', s.mapPeers.lookup k' = some r' ∧ r.addr.ip = r'.addr.ip := by
    intro k' r hr
    by_cases hk : k' = k
    · subst hk
      obtain rfl : p = r := Option.some.inj ((AList.lookup_insert _).symm.trans hr)
      exact ⟨q, hq, hip⟩
    · exact ⟨r, (AList.lookup_insert_ne hk).symm.trans hr, rfl⟩
  refine ⟨h.key_eq, ?_, ?_, h.nodup, fun k' => ?_⟩
  · intro k' r hr
    obtain ⟨r', hr', hsame⟩ := hlookup k' r hr
    rw [NetAddr.isRoutable_congr hsame]
    exact h.routable k' r' hr'
  · intro k' r hr
    obtain ⟨r', hr', hsame⟩ := hlookup k' r hr
    rw [hsame]
    exact h.filed k' r' hr'
  · refine (h.order k').trans ?_
    change _ ↔ k' ∈ s.mapPeers.insert k p
    rw [AList.mem_insert]
    constructor
    · exact Or.inr
    · rintro (rfl | hmem)
      · exact lookup_eq_some_mem hq
      · exact hmem

theorem Kept.erasePeer (h : Kept sha256 key s) (k : U64) : Kept sha256 key (s.erasePeer k) := by
  have hlookup : ∀ k' r, (s.mapPeers.erase k).lookup k' = some r →
      s.mapPeers.lookup k' = some r := by
    intro k' r hr
    have hne : k' ≠ k := by
      rintro rfl
      rw [AList.lookup_erase] at hr
      cases hr
    rwa [AList.lookup_erase_ne hne] at hr
  have horder : (eraseBySwap k s.randOrderKeys).Nodup ∧
      ∀ k', k' ∈ eraseBySwap k s.randOrderKeys ↔ k' ≠ k ∧ k' ∈ s.randOrderKeys := by
    by_cases hk : k ∈ s.randOrderKeys
    · exact eraseBySwap_spec h.nodup hk
    · rw [eraseBySwap_of_notMem hk]
      refine ⟨h.nodup, fun k' => ⟨fun hmem => ⟨?_, hmem⟩, And.right⟩⟩
      rintro rfl
      exact hk hmem
  refine ⟨h.key_eq, fun k' r hr => h.routable k' r (hlookup k' r hr),
    fun k' r hr => h.filed k' r (hlookup k' r hr), horder.1, fun k' => ?_⟩
  refine (horder.2 k').trans ?_
  change _ ↔ k' ∈ s.mapPeers.erase k
  rw [AList.mem_erase, h.order k']

theorem Kept.insert (h : Kept sha256 key s) (hroutable : p.addr.isRoutable = true)
    (hk : Book.mapKeyOf sha256 s.key p.addr.ip ∉ s.mapPeers) :
    Kept sha256 key ((Edit.insert p).apply sha256 s) := by
  obtain rfl := h.key_eq
  have hlookup : ∀ k' r, (s.mapPeers.insert (Book.mapKeyOf sha256 s.key p.addr.ip) p).lookup k' =
      some r → (k' = Book.mapKeyOf sha256 s.key p.addr.ip ∧ r = p) ∨
        s.mapPeers.lookup k' = some r := by
    intro k' r hr
    by_cases hk' : k' = Book.mapKeyOf sha256 s.key p.addr.ip
    · subst hk'
      exact .inl ⟨rfl, (Option.some.inj ((AList.lookup_insert _).symm.trans hr)).symm⟩
    · exact .inr ((AList.lookup_insert_ne hk').symm.trans hr)
  refine ⟨rfl, ?_, ?_, ?_, fun k' => ?_⟩
  · intro k' r hr
    obtain ⟨-, rfl⟩ | hr := hlookup k' r hr
    · exact hroutable
    · exact h.routable k' r hr
  · intro k' r hr
    obtain ⟨rfl, rfl⟩ | hr := hlookup k' r hr
    · rfl
    · exact h.filed k' r hr
  · refine List.nodup_append.mpr ⟨h.nodup, List.nodup_singleton _, fun a ha b hb => ?_⟩
    obtain rfl := List.mem_singleton.mp hb
    rintro rfl
    exact hk ((h.order _).mp ha)
  · change k' ∈ s.randOrderKeys ++ [_] ↔ k' ∈ s.mapPeers.insert _ p
    rw [List.mem_append, List.mem_singleton, AList.mem_insert, h.order k', or_comm]

theorem kept_of_empty (hkey : s.key = key) (hmap : s.mapPeers = ∅)
    (horder : s.randOrderKeys = []) : Kept sha256 key s where
  key_eq := hkey
  routable k p h := by
    rw [hmap] at h
    cases h
  filed k p h := by
    rw [hmap] at h
    cases h
  nodup := by
    rw [horder]
    exact List.nodup_nil
  order k := by
    rw [horder, hmap]
    exact iff_of_false List.not_mem_nil (AList.notMem_empty k)

/-- One case for each edit. -/
theorem Kept.apply (h : Kept sha256 key s) (e : Edit) (hv : e.Valid sha256 s) :
    Kept sha256 key (e.apply sha256 s) := by
  cases e with
  | change k p =>
    obtain ⟨q, hq, hip⟩ := hv
    exact h.change hq hip
  | slots newTbl triedTbl => exact ⟨h.key_eq, h.routable, h.filed, h.nodup, h.order⟩
  | erase k => exact h.erasePeer k
  | insert p => exact h.insert hv.1 hv.2
  | shuffle order =>
    exact { h with
      nodup := (List.Perm.nodup_iff hv).mpr h.nodup
      order := fun k => (List.Perm.mem_iff hv).trans (h.order k) }
  | clear => exact kept_of_empty h.key_eq rfl rfl

theorem Kept.edits (h : Kept sha256 key s) (he : Edits sha256 s s') : Kept sha256 key s' := by
  refine Run.preserves (P := Kept sha256 key) ?_ he h
  rintro s e s' hs hv rfl
  exact hs.apply e hv

/-- Any calls that return keep a book, even if two addresses have the same key. -/
theorem kept_of_reachable {U : Set IpAddr} (h : Reachable sha256 U key s) :
    Kept sha256 key s := by
  have hedits : Edits sha256 (fresh key) s :=
    Run.simulates (f := id) (fun s c s' hallowed hrun => call_edits hallowed hrun) h
  exact (kept_of_empty rfl rfl rfl : Kept sha256 key (fresh key)).edits hedits

theorem Kept.perm_keys (h : Kept sha256 key s) : s.randOrderKeys.Perm s.mapPeers.keys :=
  (List.perm_ext_iff_of_nodup h.nodup s.mapPeers.keys_nodup).mpr h.order

end Invariant

end BookEdits
