import Btclite.Consensus.HashCache
import Btclite.Library.Loops
import Btclite.Library.PairingTrees
import Btclite.Utility.HexTexts

/-!
# Merkle roots

`ComputeMerkleRoot` goes up from the hashes of the transactions level by level, and the
root it ends with is that of the tree of pairs. But a pair is hashed as the text of
its two hashes, in the order in which they are shown, where the protocol hashes their
bytes, and where there are no transactions it reads the front of an empty vector.
-/

namespace MerkleRoots

open Endian Serialize HashCache Loops PairingTrees

section Texts

def hexmap : List Byte := [0x30, 0x31, 0x32, 0x33, 0x34, 0x35, 0x36, 0x37, 0x38, 0x39,
  0x61, 0x62, 0x63, 0x64, 0x65, 0x66]

def hexDigit (b : Byte) : Byte := hexmap[b.toNat]?.getD 0

/-- `EncodeHex`, the text as its characters. -/
def encodeHex (bytes : List Byte) (spaces : Bool) : List Byte :=
  bytes.zipIdx.flatMap fun (val, i) =>
    (if spaces && i != 0 then [0x20#8] else []) ++ [hexDigit (val >>> 4), hexDigit (val &&& 15)]

theorem length_encodeHex (bytes : List Byte) :
    (encodeHex bytes false).length = 2 * bytes.length := by
  rw [encodeHex, List.length_flatMap]
  simp [Nat.mul_comm]

/-- It is the text that `DecodeHex` reads. -/
theorem encodeHex_eq_text (bytes : List Byte) (spaces : Bool) :
    encodeHex bytes spaces =
      (HexTexts.encodeHex bytes spaces).map fun c => BitVec.ofNat 8 c.toNat := by
  have hdigit : ∀ b : Byte, b.toNat < 16 →
      hexDigit b = BitVec.ofNat 8 (HexTexts.hexDigit b).toNat := by
    have hall : ∀ n < 16, hexmap[n]?.getD 0 =
        BitVec.ofNat 8 (HexTexts.hexmap[n]?.getD '0').toNat := by decide
    exact fun b hb => hall b.toNat hb
  rw [encodeHex, HexTexts.encodeHex, List.map_flatMap]
  congr 1
  funext p
  obtain ⟨val, i⟩ := p
  have hval := val.isLt
  have hhigh : (val >>> 4).toNat < 16 := by
    rw [BitVec.toNat_ushiftRight, Nat.shiftRight_eq_div_pow]
    omega
  have hlow : (val &&& 15#8).toNat < 16 := by
    rw [BitVec.toNat_and]
    exact Nat.lt_succ_of_le Nat.and_le_right
  cases hspace : spaces && i != 0 with
  | true => simp [hspace, hdigit _ hhigh, hdigit _ hlow]
  | false => simp [hspace, hdigit _ hhigh, hdigit _ hlow]

end Texts

section Levels

/-- Ways not to return: a read outside of a vector, a loop that goes on. -/
inductive Fault where
  | outOfRange
  | endless
deriving DecidableEq

variable (sha256 : List Byte → Hash256)

/-- What is hashed for a pair. -/
def hexPair (left right : Hash256) : List Byte :=
  encodeHex left.data.reverse false ++ encodeHex right.data.reverse false

/-- A turn of the loop over a level, which reads two entries at a time. -/
def pushPairs : List Hash256 → List Hash256 → Except Fault (List Hash256)
  | [], swap => .ok swap
  | [_], _ => .error .outOfRange
  | left :: right :: rest, swap =>
    pushPairs rest (swap ++ [doubleSha256 sha256 (hexPair left right)])

/-- If the number of hashes is odd, the last one is duplicated. -/
def evened (leaves : List Hash256) : List Hash256 :=
  if leaves.length % 2 ≠ 0 then leaves ++ leaves.getLast?.toList else leaves

/-- A turn of the loop over the levels; the two vectors are swapped, and one cleared. -/
def levelTurn : List Hash256 × List Hash256 →
    Except Fault (Turn (List Hash256 × List Hash256) (List Hash256))
  | (leaves, swap) =>
    if 1 < leaves.length then do
      let swap ← pushPairs sha256 (evened leaves) swap
      pure (.again (swap, []))
    else pure (.leave leaves)

/-- `ComputeMerkleRoot`, with the transactions once their hashes were asked for. Every turn
leaves fewer hashes, so the fuel lasts. -/
def computeMerkleRoot (transactions : List Object) : Except Fault (Hash256 × List Object) := do
  let leaves := transactions.map fun tx => (tx.getHash sha256).1
  let top ← loop .endless (levelTurn sha256) (leaves.length + 1) (leaves, [])
  match top with
  | [] => .error .outOfRange
  | root :: _ => pure (root, transactions.map fun tx => (tx.getHash sha256).2)

/-- The node that is made of a pair. -/
def hexNode (left right : Hash256) : Hash256 := doubleSha256 sha256 (hexPair left right)

variable {sha256}

theorem evened_cons_cons (left right : Hash256) (rest : List Hash256) :
    evened (left :: right :: rest) = left :: right :: evened rest := by
  have hparity : (left :: right :: rest).length % 2 = rest.length % 2 := by
    rw [List.length_cons, List.length_cons]
    omega
  rw [evened, evened, hparity]
  split_ifs with hodd
  · cases rest with
    | nil => exact absurd rfl hodd
    | cons next rest =>
      rw [List.getLast?_cons_cons, List.getLast?_cons_cons]
      rfl
  · rfl

/-- A turn makes the level above out of a level. -/
theorem pushPairs_evened (leaves swap : List Hash256) :
    pushPairs sha256 (evened leaves) swap = .ok (swap ++ parents (hexNode sha256) leaves) := by
  induction leaves using pairs.induct generalizing swap with
  | case1 => exact congrArg _ (List.append_nil swap).symm
  | case2 a => rfl
  | case3 a b rest ih =>
    rw [evened_cons_cons, pushPairs, ih, List.append_assoc]
    rfl

/-- The levels shrink to the root, if there are any leaves. -/
theorem levels_root (leaves : List Hash256) : ∃ top,
    loop .endless (levelTurn sha256) (leaves.length + 1) (leaves, []) = .ok top ∧
      top.head? = root (hexNode sha256) leaves := by
  refine loop_total (I := fun s => s.2 = [] ∧
    root (hexNode sha256) s.1 = root (hexNode sha256) leaves) (m := fun s => s.1.length) ?_
    ⟨rfl, rfl⟩ (Nat.lt_succ_self _)
  rintro ⟨level, swap⟩ ⟨hswap, hroot⟩
  obtain rfl : swap = [] := hswap
  by_cases hmore : 1 < level.length
  · refine Or.inl ⟨(parents (hexNode sha256) level, []), ?_, ⟨rfl, ?_⟩, ?_⟩
    · rw [levelTurn, if_pos hmore, pushPairs_evened]
      rfl
    · rw [← hroot]
      exact (root_of_lt hmore).symm
    · dsimp only at hmore ⊢
      rw [length_parents]
      omega
  · refine Or.inr ⟨level, ?_, ?_⟩
    · rw [levelTurn, if_neg hmore]
      rfl
    · rw [← hroot]
      exact (root_of_le (Nat.le_of_not_lt hmore)).symm

end Levels

section Roots

variable (sha256 : List Byte → Hash256)

def txHashes (transactions : List Object) : List Hash256 :=
  transactions.map fun tx => (tx.getHash sha256).1

/-- What the protocol hashes for a pair. -/
def rawPair (left right : Hash256) : List Byte := left.data ++ right.data

def rawNode (left right : Hash256) : Hash256 := doubleSha256 sha256 (rawPair left right)

/-- The root that the protocol asks for. -/
def merkleRoot (hashes : List Hash256) : Option Hash256 := root (rawNode sha256) hashes

/-- A root is computed, and where there are transactions it is theirs. -/
def Meets (transactions : List Object) : Prop :=
  ∃ computed after, computeMerkleRoot sha256 transactions = .ok (computed, after) ∧
    (transactions ≠ [] → merkleRoot sha256 (txHashes sha256 transactions) = some computed)

/-- Whatever is hashed on the way to the root that is computed, and to the one asked for. -/
def hashed (hashes : List Hash256) : Set (List Byte) :=
  { m | (∃ p ∈ joined (hexNode sha256) hashes, m = hexPair p.1 p.2) ∨
    ∃ p ∈ joined (rawNode sha256) hashes, m = rawPair p.1 p.2 }

variable {sha256} {transactions : List Object}

theorem length_hexPair (left right : Hash256) : (hexPair left right).length = 128 := by
  simp [hexPair, length_encodeHex]

theorem length_rawPair (left right : Hash256) : (rawPair left right).length = 64 := by
  simp [rawPair]

/-- The root that is computed is that of the tree of pairs hashed as text. -/
theorem computeMerkleRoot_ok {computed : Hash256}
    (h : root (hexNode sha256) (txHashes sha256 transactions) = some computed) :
    computeMerkleRoot sha256 transactions =
      .ok (computed, transactions.map fun tx => (tx.getHash sha256).2) := by
  rcases @levels_root sha256 (txHashes sha256 transactions) with ⟨top, hloop, htop⟩
  rw [h] at htop
  obtain ⟨rest, rfl⟩ := List.head?_eq_some_iff.mp htop
  rw [txHashes] at hloop
  rw [computeMerkleRoot, hloop]
  rfl

/-- Wherever there are transactions, such a root is computed. -/
theorem computeMerkleRoot_tree (h : transactions ≠ []) : ∃ computed,
    computeMerkleRoot sha256 transactions =
        .ok (computed, transactions.map fun tx => (tx.getHash sha256).2) ∧
      root (hexNode sha256) (txHashes sha256 transactions) = some computed := by
  have hne : txHashes sha256 transactions ≠ [] := fun hnil => h (List.map_eq_nil_iff.mp hnil)
  obtain ⟨computed, hroot⟩ := @root_some _ (hexNode sha256) _ hne
  exact ⟨computed, computeMerkleRoot_ok hroot, hroot⟩

theorem computeMerkleRoot_nil : computeMerkleRoot sha256 [] = .error .outOfRange := rfl

/-- The tree is built of the wrong nodes, which shows unless there is none. SHA-256 is taken
to tell apart what is hashed. -/
theorem meets_iff_single (transactions : List Object)
    (hinj : (hashed sha256 (txHashes sha256 transactions)).InjOn (doubleSha256 sha256)) :
    Meets sha256 transactions ↔ transactions.length = 1 := by
  have hlength : (txHashes sha256 transactions).length = transactions.length := List.length_map ..
  obtain hnil | hone | hmore : transactions.length = 0 ∨ transactions.length = 1 ∨
      1 < transactions.length := by omega
  · obtain rfl := List.length_eq_zero_iff.mp hnil
    refine iff_of_false ?_ (by decide)
    rintro ⟨computed, after, hcomputed, -⟩
    rw [computeMerkleRoot_nil] at hcomputed
    cases hcomputed
  · refine iff_of_true ?_ hone
    obtain ⟨tx, rfl⟩ := List.length_eq_one_iff.mp hone
    exact ⟨_, _, computeMerkleRoot_ok (root_of_le (Nat.le_refl 1)),
      fun _ => root_of_le (Nat.le_refl 1)⟩
  · refine iff_of_false ?_ (by omega)
    rintro ⟨computed, after, hcomputed, hroot⟩
    rw [← hlength] at hmore
    obtain ⟨p, hp, hhex⟩ := @root_joined _ (hexNode sha256) _ hmore
    obtain ⟨q, hq, hraw⟩ := @root_joined _ (rawNode sha256) _ hmore
    have hne : transactions ≠ [] := by
      rintro rfl
      rw [hlength] at hmore
      exact absurd hmore (by decide)
    have hsame : doubleSha256 sha256 (hexPair p.1 p.2) = doubleSha256 sha256 (rawPair q.1 q.2) := by
      rw [computeMerkleRoot_ok hhex] at hcomputed
      have hspec := hroot hne
      rw [merkleRoot, hraw] at hspec
      have hfirst : hexNode sha256 p.1 p.2 = computed :=
        congrArg Prod.fst (Except.ok.inj hcomputed)
      exact hfirst.trans (Option.some.inj hspec).symm
    have hmessages := hinj (Or.inl ⟨p, hp, rfl⟩) (Or.inr ⟨q, hq, rfl⟩) hsame
    have hlengths := congrArg List.length hmessages
    rw [length_hexPair, length_rawPair] at hlengths
    exact absurd hlengths (by decide)

end Roots

section Examples

/-- The two transactions of a block, as their constructors leave them. -/
def emptyObject : Object := ⟨emptyTransaction, nullHash⟩

def paymentObject : Object := ⟨payment, nullHash⟩

/-- SHA-256 on these transactions, and on what is hashed for the pair of them. -/
def merkleSha256 (bytes : List Byte) : Hash256 :=
  ([(hexPair (doubleSha256 knownSha256 emptyTransaction.serialize)
      (doubleSha256 knownSha256 payment.serialize),
      hashOf 0x0d1a1c87ddbaa5b1d41e0f332df3d95e8b2b894642084556d66aeac66bdc1182),
    ((hashOf 0x0d1a1c87ddbaa5b1d41e0f332df3d95e8b2b894642084556d66aeac66bdc1182).data,
      hashOf 0x0c20c18042e13d7004dd2bfc0a8069eb7699f244d6de66be6f42374fe5454262),
    (rawPair (doubleSha256 knownSha256 emptyTransaction.serialize)
      (doubleSha256 knownSha256 payment.serialize),
      hashOf 0xa6b9ce77259a7c08b61dd4b762b4efbc65fa6de9b31e87f1a7c63fac37e4d914),
    ((hashOf 0xa6b9ce77259a7c08b61dd4b762b4efbc65fa6de9b31e87f1a7c63fac37e4d914).data,
      hashOf 0x515cdae7fea4b1633fb0a89ab9604a67c65df87abbc689733e902e8b1db74312)].lookup
    bytes).getD (knownSha256 bytes)

theorem pair_hashes : txHashes merkleSha256 [emptyObject, paymentObject] =
    [hashOf 0x43ec7a579f5561a42a7e9637ad4156672735a658be2752181801f723ba3316d2,
      hashOf 0xbf9f558774fa3a1c713c61f907455247de188dca108cc8ca5100a465a01d88c2] := by
  decide +kernel

/-- The root of a block of two transactions, and the one it should have. -/
theorem merkle_root_differs :
    (computeMerkleRoot merkleSha256 [emptyObject, paymentObject]).map Prod.fst =
        .ok (hashOf 0x0c20c18042e13d7004dd2bfc0a8069eb7699f244d6de66be6f42374fe5454262) ∧
      merkleRoot merkleSha256 (txHashes merkleSha256 [emptyObject, paymentObject]) =
        some (hashOf 0x515cdae7fea4b1633fb0a89ab9604a67c65df87abbc689733e902e8b1db74312) ∧
      ¬ Meets merkleSha256 [emptyObject, paymentObject] ∧ ¬ Meets merkleSha256 [] := by
  have hcomputed : (computeMerkleRoot merkleSha256 [emptyObject, paymentObject]).map Prod.fst =
      .ok (hashOf 0x0c20c18042e13d7004dd2bfc0a8069eb7699f244d6de66be6f42374fe5454262) := by
    decide +kernel
  have hroot : merkleRoot merkleSha256 (txHashes merkleSha256 [emptyObject, paymentObject]) =
      some (hashOf 0x515cdae7fea4b1633fb0a89ab9604a67c65df87abbc689733e902e8b1db74312) := by
    rw [pair_hashes, merkleRoot, root_of_lt (by decide), parents, pairs, pairs,
      root_of_le (by decide)]
    decide +kernel
  refine ⟨hcomputed, hroot, ?_, ?_⟩
  · rintro ⟨computed, after, hrun, hmeets⟩
    rw [hrun] at hcomputed
    obtain rfl : computed = _ := Except.ok.inj hcomputed
    have hwrong := Option.some.inj (hroot.symm.trans (hmeets (by decide)))
    revert hwrong
    decide +kernel
  · rintro ⟨computed, after, hrun, -⟩
    cases hrun

/-- On that block, where nothing that is hashed collides. -/
theorem meets_iff_single_pair :
    Meets merkleSha256 [emptyObject, paymentObject] ↔ [emptyObject, paymentObject].length = 1 := by
  refine meets_iff_single _ ?_
  rw [pair_hashes]
  have hpair : ∀ m ∈ hashed merkleSha256 [
      hashOf 0x43ec7a579f5561a42a7e9637ad4156672735a658be2752181801f723ba3316d2,
      hashOf 0xbf9f558774fa3a1c713c61f907455247de188dca108cc8ca5100a465a01d88c2],
      m = hexPair (hashOf 0x43ec7a579f5561a42a7e9637ad4156672735a658be2752181801f723ba3316d2)
          (hashOf 0xbf9f558774fa3a1c713c61f907455247de188dca108cc8ca5100a465a01d88c2) ∨
        m = rawPair (hashOf 0x43ec7a579f5561a42a7e9637ad4156672735a658be2752181801f723ba3316d2)
          (hashOf 0xbf9f558774fa3a1c713c61f907455247de188dca108cc8ca5100a465a01d88c2) := by
    rintro m (⟨p, hp, rfl⟩ | ⟨p, hp, rfl⟩)
    · rw [joined_pair, List.mem_singleton] at hp
      exact Or.inl (by rw [hp])
    · rw [joined_pair, List.mem_singleton] at hp
      exact Or.inr (by rw [hp])
  intro m hm m' hm' hsame
  rcases hpair m hm with rfl | rfl <;> rcases hpair m' hm' with rfl | rfl
  · rfl
  · revert hsame
    decide +kernel
  · revert hsame
    decide +kernel
  · rfl

end Examples

end MerkleRoots
