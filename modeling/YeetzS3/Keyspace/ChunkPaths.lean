import Mathlib.Data.Option.Basic
import YeetzS3.Paths
import YeetzS3.Keyspace.Chunks

/-!
# Chunk paths

A chunk path is read back exactly: `parse_chunk_object_key` accepts the paths `chunk_object_key` writes and no others,
so a path that classifies under a logical key is the path of one chunk of one generation of that key.
-/

namespace YeetzS3.Keyspace

open Conc

/-- The text of a chunk path. -/
theorem chunkObjectKey_eq (ns key : Str) (incarnation version : UInt64) (digestHex : Str) :
    chunkObjectKey ns key incarnation version digestHex =
      "keyspace-chunks/v1/".toList ++ (ns ++ '/' :: (hexEncode (Json.utf8 key) ++ '/' ::
        (seqComponent incarnation ++ '/' :: (seqComponent version ++ '/' :: digestHex)))) := by
  unfold chunkObjectKey
  generalize "keyspace-chunks/v1/".toList = r
  simp only [List.append_assoc, List.cons_append, List.nil_append, Json.utf8]

/-- A chunk of a keyspace lies under its chunk root. -/
theorem AtomicKeyspace.chunkObjectKey_root (K : AtomicKeyspace) (key : Str) (incarnation version : UInt64) (digestHex : Str) :
    chunkObjectKey K.ns key incarnation version digestHex =
      K.chunkRootPrefix ++ (hexEncode (Json.utf8 key) ++ '/' ::
        (seqComponent incarnation ++ '/' :: (seqComponent version ++ '/' :: digestHex))) := by
  refine (chunkObjectKey_eq ..).trans ?_
  unfold AtomicKeyspace.chunkRootPrefix
  generalize "keyspace-chunks/v1/".toList = r
  simp only [List.append_assoc, List.cons_append, List.nil_append]

theorem slash_not_mem_hexEncode (bs : Bytes) : '/' ∉ hexEncode bs := by
  have hd : ∀ n < 16, hexDigit n ≠ '/' := by decide
  intro h
  obtain ⟨b, -, hb⟩ := List.mem_flatMap.1 h
  have hlt := b.toNat_lt
  rcases List.mem_cons.1 hb with hb | hb
  · exact hd _ (by omega) hb.symm
  · exact hd _ (by omega) (List.mem_singleton.1 hb).symm

theorem slash_not_mem_seqComponent (n : UInt64) : '/' ∉ seqComponent n := fun h =>
  absurd (List.all_eq_true.1 (decDigits_isDigit 20 n.toNat) _ h) (by decide)

theorem isLowerHex_chars {s : Str} (h : isLowerHex s = true) {c : Char} (hc : c ∈ s) :
    (48 ≤ c.toNat ∧ c.toNat ≤ 57) ∨ (97 ≤ c.toNat ∧ c.toNat ≤ 102) := by
  have := List.all_eq_true.1 h c hc
  simpa using this

theorem slash_not_mem_of_isLowerHex {s : Str} (h : isLowerHex s = true) : '/' ∉ s := fun hs =>
  absurd (isLowerHex_chars h hs) (by decide)

theorem isLowerHex_hexEncode (bs : Bytes) : isLowerHex (hexEncode bs) = true := by
  have hd : ∀ n < 16, (48 ≤ (hexDigit n).toNat && (hexDigit n).toNat ≤ 57) ||
      (97 ≤ (hexDigit n).toNat && (hexDigit n).toNat ≤ 102) := by decide
  refine List.all_eq_true.2 fun c hc => ?_
  obtain ⟨b, -, hb⟩ := List.mem_flatMap.1 hc
  have hlt := b.toNat_lt
  rcases List.mem_cons.1 hb with rfl | hb
  · exact hd _ (by omega)
  · rw [List.mem_singleton.1 hb]
    exact hd _ (by omega)

theorem hexEncode_length (bs : Bytes) : (hexEncode bs).length = 2 * bs.length := by
  induction bs with
  | nil => rfl
  | cons b bs ih =>
    have hcons : hexEncode (b :: bs) = hexDigit (b.toNat / 16) :: hexDigit (b.toNat % 16) :: hexEncode bs := rfl
    rw [hcons, List.length_cons, List.length_cons, List.length_cons, ih]
    omega

/-! ### Reading a path -/

theorem parseChunkSegments_some {ns : List Str} {encodedKey incarnation version digestHex : Str} {p : ChunkObjectPath}
    (h : parseChunkSegments ns encodedKey incarnation version digestHex = some p) :
    p.ns = ['/'].intercalate ns ∧ encodedKey = hexEncode (Json.utf8 p.logicalKey) ∧
      incarnation = seqComponent p.incarnation ∧ version = seqComponent p.version ∧ digestHex = p.digestHex ∧
      isLowerHex digestHex = true ∧ digestHex.length = 64 ∧
      validateIdentifier "chunk namespace" p.ns = .ok () ∧ validateIdentifier "chunk logical key" p.logicalKey = .ok () := by
  unfold parseChunkSegments at h
  obtain ⟨v, hv, h⟩ := Option.bind_eq_some_iff.1 h
  obtain ⟨i, hi, h⟩ := Option.bind_eq_some_iff.1 h
  obtain ⟨_, hd, h⟩ := Option.bind_eq_some_iff.1 h
  obtain ⟨_, he, h⟩ := Option.bind_eq_some_iff.1 h
  obtain ⟨key, hk, h⟩ := Option.bind_eq_some_iff.1 h
  obtain ⟨_, hn, h⟩ := Option.bind_eq_some_iff.1 h
  obtain ⟨_, hl, h⟩ := Option.bind_eq_some_iff.1 h
  cases h
  obtain ⟨bs, hbs, hkey⟩ := Option.bind_eq_some_iff.1 hk
  rw [Option.guard_eq_some'] at hd he hn hl
  refine ⟨rfl, ?_, seqComponent_of_parse hi, seqComponent_of_parse hv, rfl, hd.1, hd.2, hn, hl⟩
  rw [Json.utf8_of_ofUtf8 hkey]
  refine (hexEncode_of_hexDecode (fun c hc => ?_) hbs).symm
  have := isLowerHex_chars he.2.2 hc
  omega

/-- A path that is read is the path of what it is read as. -/
theorem chunkObjectKey_of_parse {path : Str} {p : ChunkObjectPath} (h : parseChunkObjectKey path = some p) :
    path = chunkObjectKey p.ns p.logicalKey p.incarnation p.version p.digestHex ∧ isLowerHex p.digestHex = true ∧
      p.digestHex.length = 64 ∧ ValidPath p.ns ∧ validateIdentifier "chunk logical key" p.logicalKey = .ok () := by
  unfold parseChunkObjectKey at h
  obtain ⟨rest, hrest, h⟩ := Option.bind_eq_some_iff.1 h
  have hpath : path = "keyspace-chunks/v1/".toList ++ rest := stripPrefix_eq_some.1 hrest
  split at h
  · next digestHex version incarnation encodedKey n ns hs =>
    obtain ⟨hns, he, hi, hv, hdigest, hlow, hlen, hvn, hvl⟩ := parseChunkSegments_some h
    rw [he, hi, hv, hdigest] at hs
    rw [hdigest] at hlow hlen
    refine ⟨?_, hlow, hlen, validPath_of_validate hvn, hvl⟩
    have hsplit : rest.splitOn '/' = (n :: ns).reverse ++ [hexEncode (Json.utf8 p.logicalKey),
        seqComponent p.incarnation, seqComponent p.version, p.digestHex] := by
      rw [← List.reverse_reverse (rest.splitOn '/'), hs]
      simp
    have hjoin : rest = ['/'].intercalate ((n :: ns).reverse ++ [hexEncode (Json.utf8 p.logicalKey),
        seqComponent p.incarnation, seqComponent p.version, p.digestHex]) := by
      rw [← hsplit, List.intercalate_splitOn]
    refine hpath.trans (Eq.trans (congrArg _ ?_) (chunkObjectKey_eq ..).symm)
    rw [hns, hjoin, intercalate_append (by simp) (by simp)]
    simp [List.intercalate_cons_cons]
  · cases h

/-- The paths that are written are read back. -/
theorem parse_chunkObjectKey {ns key digestHex : Str} (incarnation version : UInt64)
    (hn : validateIdentifier "chunk namespace" ns = .ok ()) (hk : validateIdentifier "chunk logical key" key = .ok ())
    (hd : isLowerHex digestHex = true) (hl : digestHex.length = 64) :
    parseChunkObjectKey (chunkObjectKey ns key incarnation version digestHex) =
      some ⟨ns, key, incarnation, version, digestHex⟩ := by
  have hsplit : (ns ++ '/' :: (hexEncode (Json.utf8 key) ++ '/' :: (seqComponent incarnation ++ '/' ::
      (seqComponent version ++ '/' :: digestHex)))).splitOn '/' =
        ns.splitOn '/' ++ [hexEncode (Json.utf8 key), seqComponent incarnation, seqComponent version, digestHex] := by
    simp only [List.splitOn_append_cons_self, List.splitOn_eq_singleton (slash_not_mem_hexEncode _),
      List.splitOn_eq_singleton (slash_not_mem_seqComponent _), List.splitOn_eq_singleton (slash_not_mem_of_isLowerHex hd),
      List.singleton_append]
  have hkey : key ≠ [] := by
    rintro rfl
    cases hk
  have hne : hexEncode (Json.utf8 key) ≠ [] := by
    intro h
    have hlen := hexEncode_length (Json.utf8 key)
    rw [h] at hlen
    have hu : Json.utf8 key = Json.utf8 [] := List.eq_nil_of_length_eq_zero (by simpa using hlen.symm)
    exact hkey (Json.utf8_injective hu)
  have hsegments : parseChunkSegments (ns.splitOn '/') (hexEncode (Json.utf8 key)) (seqComponent incarnation)
      (seqComponent version) digestHex = some ⟨ns, key, incarnation, version, digestHex⟩ := by
    unfold parseChunkSegments
    simp only [parseSeqComponent_seqComponent, Option.bind_eq_bind, Option.bind_some, hexDecode_hexEncode, Json.ofUtf8_utf8,
      List.intercalate_splitOn, hn, hk, hd, hl, hexEncode_length, Nat.mul_mod_right, isLowerHex_hexEncode, and_self,
      ne_eq, hne, not_false_eq_true, guard, if_true]
    rfl
  obtain ⟨n, tail, hns⟩ := List.exists_cons_of_ne_nil (List.splitOn_ne_nil '/' ns)
  have hrev : (ns.splitOn '/' ++ [hexEncode (Json.utf8 key), seqComponent incarnation, seqComponent version,
      digestHex]).reverse = digestHex :: seqComponent version :: seqComponent incarnation ::
        hexEncode (Json.utf8 key) :: (ns.splitOn '/').reverse := by simp
  obtain ⟨m, init, hm⟩ := List.exists_cons_of_ne_nil (l := (ns.splitOn '/').reverse) (by simp [hns])
  unfold parseChunkObjectKey
  refine Option.bind_eq_some_iff.2 ⟨_, stripPrefix_eq_some.2 (chunkObjectKey_eq ..), ?_⟩
  rw [hsplit, hrev, hm]
  dsimp only
  rw [← hm, List.reverse_reverse, hsegments]

/-- Chunk paths and the identities they are written for determine each other. -/
theorem chunk_paths_exact :
    (∀ (ns key digestHex : Str) (incarnation version : UInt64), validateIdentifier "chunk namespace" ns = .ok () →
      validateIdentifier "chunk logical key" key = .ok () → isLowerHex digestHex = true → digestHex.length = 64 →
      parseChunkObjectKey (chunkObjectKey ns key incarnation version digestHex) =
        some ⟨ns, key, incarnation, version, digestHex⟩) ∧
    ∀ (path : Str) (p : ChunkObjectPath), parseChunkObjectKey path = some p →
      chunkObjectKey p.ns p.logicalKey p.incarnation p.version p.digestHex = path :=
  ⟨fun _ _ _ incarnation version hn hk hd hl => parse_chunkObjectKey incarnation version hn hk hd hl,
    fun _ _ h => (chunkObjectKey_of_parse h).1.symm⟩

/-- A namespace whose last segments look like a hex key and two counters. -/
theorem chunk_paths_exact_nested :
    parseChunkObjectKey (chunkObjectKey "a/6b/00000000000000000001/00000000000000000002".toList "k/x".toList
        18446744073709551615 0 (List.replicate 64 '0')) =
      some ⟨"a/6b/00000000000000000001/00000000000000000002".toList, "k/x".toList, 18446744073709551615, 0,
        List.replicate 64 '0'⟩ ∧
    chunkObjectKey "a".toList "k".toList 1 2 (List.replicate 64 'f') =
      "keyspace-chunks/v1/a/6b/00000000000000000001/00000000000000000002/".toList ++ List.replicate 64 'f' :=
  ⟨chunk_paths_exact.1 _ _ _ _ _ (by decide) (by decide) (by decide) (by decide),
    chunk_paths_exact.2 _ ⟨"a".toList, "k".toList, 1, 2, List.replicate 64 'f'⟩ (by decide +kernel)⟩

end YeetzS3.Keyspace
