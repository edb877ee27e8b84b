import SnapCpp.Gzip

/-!
The choice of a compressor. With the name "best" every registered compressor is tried and the
smallest output kept, whatever the size of the input; with any other name the input is
returned as it is when its output would not be smaller.
-/
namespace SnapCpp.Compression

open SnapCpp.Gzip (Bytes Zlib GzHeader boundLevel resized)

/-- The functions of zlib in use for a stream without a gzip header. -/
structure DeflateZlib where
  deflateInit2 : ℕ → Bool
  deflateBound : ℕ → ℕ
  deflate : ℕ → Bytes → ℕ → Bool × Bytes

/-- `compressor_t`, as far as `compress()` goes. -/
structure Compressor where
  getName : String
  compress : Bytes → ℤ → Bool → Bytes

/-- `gzip_t` -/
def gzip (z : Zlib) (time : ℕ) : Compressor where
  getName := "gzip"
  compress := Gzip.compress z time

/-- The stream `deflate_t::compress()` produces, none when some step of zlib fails. -/
def deflateStream (z : DeflateZlib) (input : Bytes) (level : ℤ) : Option Bytes :=
  let zlibLevel := boundLevel ((level * 2 + 25).tdiv 25).toNat 1 9
  if !z.deflateInit2 zlibLevel then none
  else
    let room := resized (BitVec.ofNat 32 (z.deflateBound input.length))
    let result := z.deflate zlibLevel input room
    if result.1 then some result.2 else none

/-- `deflate_t` -/
def deflate (z : DeflateZlib) : Compressor where
  getName := "deflate"
  compress input level _ := (deflateStream z input level).getD input

/-- `g_compressors`, in the order of the names. -/
def gCompressors (z : Zlib) (z' : DeflateZlib) (time : ℕ) : List Compressor :=
  [deflate z', gzip z time]

def bestCompression : String := "best"

def noCompression : String := "none"

def clampLevel (level : ℤ) : ℤ := if level < 0 then 0 else if level > 100 then 100 else level

def tryCompressor (input : Bytes) (level : ℤ) (text : Bool) (best : String × Bytes)
    (c : Compressor) : String × Bytes :=
  if best.2.length = 0 then
    (c.getName, c.compress input level text)
  else
    let test := c.compress input level text
    if test.length < best.2.length then (c.getName, test) else best

/-- `compress()`: the name of the compressor and the result. -/
def compress (compressors : List Compressor) (compressorName : String) (input : Bytes) (level : ℤ)
    (text : Bool) : String × Bytes :=
  let level := clampLevel level
  if input.length = 0 ∨ level < 5 then
    (noCompression, input)
  else if compressorName = bestCompression then
    compressors.foldl (tryCompressor input level text) (compressorName, [])
  else
    match compressors.find? (·.getName = compressorName) with
    | none => (noCompression, input)
    | some c =>
      let result := c.compress input level text
      if result.length ≥ input.length then (noCompression, input) else (compressorName, result)

/-- What `compress()` is to report: the input as it is under the name "none", or the smaller
output of the compressor it names, the smallest of all when the best was asked for. -/
def Reports (compressors : List Compressor) (compressorName : String) (input : Bytes) (level : ℤ)
    (text : Bool) (reported : String × Bytes) : Prop :=
  (reported.1 = noCompression ∧ reported.2 = input) ∨
    (reported.2.length < input.length ∧
      (∃ c ∈ compressors, c.getName = reported.1 ∧
        c.compress input (clampLevel level) text = reported.2) ∧
      (compressorName = bestCompression → ∀ c ∈ compressors,
        reported.2.length ≤ (c.compress input (clampLevel level) text).length))

structure Smallest (compressors : List Compressor) (input : Bytes) (level : ℤ) (text : Bool)
    (best : String × Bytes) : Prop where
  output : ∃ c ∈ compressors, c.getName = best.1 ∧ c.compress input level text = best.2
  least : ∀ c ∈ compressors, best.2.length ≤ (c.compress input level text).length

section Choice

variable {compressors : List Compressor} {compressorName : String} {input : Bytes} {level : ℤ}
  {text : Bool} {best : String × Bytes} {c : Compressor}

theorem Smallest.try (h : Smallest compressors input level text best) (hbest : best.2 ≠ []) :
    Smallest (compressors ++ [c]) input level text (tryCompressor input level text best c) := by
  unfold tryCompressor
  rw [if_neg (mt List.length_eq_zero_iff.mp hbest)]
  dsimp only
  split_ifs with hsmaller
  · refine ⟨⟨c, by simp, rfl, rfl⟩, ?_⟩
    rw [List.forall_mem_append]
    refine ⟨fun d hd => hsmaller.le.trans (h.least d hd), fun d hd => ?_⟩
    rw [List.mem_singleton.mp hd]
  · obtain ⟨d, hd, hname, houtput⟩ := h.output
    refine ⟨⟨d, List.mem_append_left _ hd, hname, houtput⟩, ?_⟩
    rw [List.forall_mem_append]
    refine ⟨h.least, fun d hd => ?_⟩
    rw [List.mem_singleton.mp hd]
    exact not_lt.mp hsmaller

theorem smallest_foldl (hfull : ∀ c ∈ compressors, c.compress input level text ≠ [])
    (hsome : compressors ≠ []) (name : String) :
    Smallest compressors input level text
      (compressors.foldl (tryCompressor input level text) (name, [])) := by
  induction compressors using List.reverseRecOn with
  | nil => exact absurd rfl hsome
  | append_singleton seen c ih =>
    rw [List.forall_mem_append] at hfull
    rw [List.foldl_append, List.foldl_cons, List.foldl_nil]
    by_cases hfirst : seen = []
    · subst hfirst
      refine ⟨⟨c, by simp, rfl, rfl⟩, fun d hd => ?_⟩
      rw [List.nil_append, List.mem_singleton] at hd
      rw [hd]
      exact Nat.le_refl _
    · have hseen := ih hfull.1 hfirst
      obtain ⟨d, hd, -, houtput⟩ := hseen.output
      exact hseen.try (houtput ▸ hfull.1 d hd)

theorem clampLevel_lt (level : ℤ) : clampLevel level < 5 ↔ level < 5 := by
  unfold clampLevel
  split_ifs <;> omega

theorem reports_named (h : compressorName ≠ bestCompression) :
    Reports compressors compressorName input level text
      (compress compressors compressorName input level text) := by
  unfold compress
  dsimp only
  split_ifs with hnothing
  · exact Or.inl ⟨rfl, rfl⟩
  · cases hfind : compressors.find? (·.getName = compressorName) with
    | none => exact Or.inl ⟨rfl, rfl⟩
    | some c =>
      dsimp only
      split_ifs with hlarge
      · exact Or.inl ⟨rfl, rfl⟩
      · have hname : c.getName = compressorName := by simpa using List.find?_some hfind
        refine Or.inr ⟨not_le.mp hlarge, ⟨c, List.mem_of_find?_eq_some hfind, hname, rfl⟩, ?_⟩
        exact fun hbest => absurd hbest h

theorem reports_best (hfull : ∀ c ∈ compressors, c.compress input (clampLevel level) text ≠ [])
    (hnamed : ∀ c ∈ compressors, c.getName ≠ noCompression) (hsome : compressors ≠ [])
    (hinput : input ≠ []) (hlevel : 5 ≤ level) :
    Reports compressors bestCompression input level text
      (compress compressors bestCompression input level text) ↔
    ∃ c ∈ compressors, (c.compress input (clampLevel level) text).length < input.length := by
  have hdone : ¬ (input.length = 0 ∨ clampLevel level < 5) := by
    rw [clampLevel_lt, List.length_eq_zero_iff, not_or]
    exact ⟨hinput, not_lt.mpr hlevel⟩
  have hbest := smallest_foldl hfull hsome bestCompression
  rw [compress, if_neg hdone, if_pos rfl]
  constructor
  · rintro (⟨hnone, -⟩ | ⟨hsmaller, ⟨c, hc, -, houtput⟩, -⟩)
    · obtain ⟨c, hc, hname, -⟩ := hbest.output
      exact absurd (hname.trans hnone) (hnamed c hc)
    · exact ⟨c, hc, houtput ▸ hsmaller⟩
  · rintro ⟨c, hc, hsmaller⟩
    exact Or.inr ⟨(hbest.least c hc).trans_lt hsmaller, hbest.output, fun _ => hbest.least⟩

end Choice

/-- zlib ends no stream it has written nothing of. -/
structure NeverEmpty (z : Zlib) (z' : DeflateZlib) : Prop where
  gzip : ∀ {level header input room out}, z.deflate level header input room = (true, out) → out ≠ []
  deflate : ∀ {level input room out}, z'.deflate level input room = (true, out) → out ≠ []

section Registered

variable {z : Zlib} {z' : DeflateZlib}

theorem gzip_ne_nil (hz : NeverEmpty z z') (time : ℕ) {input : Bytes} (hinput : input ≠ [])
    (level : ℤ) (text : Bool) : (gzip z time).compress input level text ≠ [] := by
  show (Gzip.stream z time input level text).getD input ≠ []
  cases hstream : Gzip.stream z time input level text with
  | none => exact hinput
  | some out =>
    obtain ⟨room, hdeflate⟩ := Gzip.deflate_of_stream hstream
    exact hz.gzip hdeflate

theorem deflate_ne_nil (hz : NeverEmpty z z') {input : Bytes} (hinput : input ≠ []) (level : ℤ)
    (text : Bool) : (deflate z').compress input level text ≠ [] := by
  show (deflateStream z' input level).getD input ≠ []
  cases hstream : deflateStream z' input level with
  | none => exact hinput
  | some out =>
    unfold deflateStream at hstream
    dsimp only at hstream
    split_ifs at hstream with hinit hend
    exact hz.deflate (Prod.ext hend (Option.some.inj hstream))

end Registered

/-- What `compress()` reports is what it did exactly when the best was not asked for, there was
nothing to compress, or some compressor makes the input smaller. -/
theorem reports_compress_iff {z : Zlib} {z' : DeflateZlib} (hz : NeverEmpty z z') (time : ℕ)
    (compressorName : String) (input : Bytes) (level : ℤ) (text : Bool) :
    Reports (gCompressors z z' time) compressorName input level text
      (compress (gCompressors z z' time) compressorName input level text) ↔
    (compressorName = bestCompression → input = [] ∨ level < 5 ∨
      ∃ c ∈ gCompressors z z' time,
        (c.compress input (clampLevel level) text).length < input.length) := by
  by_cases hbest : compressorName = bestCompression
  · subst hbest
    by_cases hnothing : input = [] ∨ level < 5
    · have hdone : input.length = 0 ∨ clampLevel level < 5 := by
        rwa [clampLevel_lt, List.length_eq_zero_iff]
      rw [compress, if_pos hdone]
      exact iff_of_true (Or.inl ⟨rfl, rfl⟩) fun _ => hnothing.imp_right Or.inl
    · obtain ⟨hinput, hlevel⟩ := not_or.mp hnothing
      have hfull : ∀ c ∈ gCompressors z z' time,
          c.compress input (clampLevel level) text ≠ [] := by
        rw [gCompressors, List.forall_mem_cons, List.forall_mem_singleton]
        exact ⟨deflate_ne_nil hz hinput _ text, gzip_ne_nil hz time hinput _ text⟩
      have hnamed : ∀ c ∈ gCompressors z z' time, c.getName ≠ noCompression := by
        rw [gCompressors, List.forall_mem_cons, List.forall_mem_singleton]
        exact ⟨by simp [deflate, noCompression], by simp [gzip, noCompression]⟩
      rw [reports_best hfull hnamed (by simp [gCompressors]) hinput (not_lt.mp hlevel),
        or_iff_right hinput, or_iff_right hlevel]
      exact ⟨fun hsmaller _ => hsmaller, fun h => h rfl⟩
  · exact iff_of_true (reports_named hbest) fun h => absurd h hbest

def sampleDeflateZlib : DeflateZlib where
  deflateInit2 _ := true
  deflateBound n := n + (n + 7) / 8 + (n + 63) / 64 + 5 + 6
  deflate level input room :=
    if level = 9 ∧ input = [0x61] ∧ 9 ≤ room then
      (true, [0x78, 0xDA, 0x4B, 0x04, 0x00, 0x00, 0x62, 0x00, 0x62])
    else
      (false, [])

theorem neverEmpty_sample : NeverEmpty Gzip.sampleZlib sampleDeflateZlib where
  gzip h := by
    have hall : ∀ sample ∈ Gzip.sampleStreams, sample.2 ≠ [] := by decide
    exact hall _ (Gzip.sampleZlib_deflate h)
  deflate h := by
    unfold sampleDeflateZlib at h
    dsimp only at h
    split_ifs at h
    · obtain rfl := (Prod.mk.inj h).2
      exact List.cons_ne_nil _ _
    · cases h

/-- The best there is for one letter is longer than the letter, and returned. -/
theorem best_is_longer : ¬ ∀ (z : Zlib) (z' : DeflateZlib), NeverEmpty z z' →
    ∀ (time : ℕ) (compressorName : String) (input : Bytes) (level : ℤ) (text : Bool),
      Reports (gCompressors z z' time) compressorName input level text
        (compress (gCompressors z z' time) compressorName input level text) := by
  intro h
  have hletter := h Gzip.sampleZlib sampleDeflateZlib neverEmpty_sample 0 "best" [0x61] 100 false
  have hbest : compress (gCompressors Gzip.sampleZlib sampleDeflateZlib 0) "best" [0x61] 100
      false = ("deflate", [0x78, 0xDA, 0x4B, 0x04, 0x00, 0x00, 0x62, 0x00, 0x62]) := by
    decide
  rw [hbest] at hletter
  rcases hletter with ⟨hnone, -⟩ | ⟨hsmaller, -⟩
  · revert hnone
    decide
  · revert hsmaller
    decide

theorem reports_compress_iff_letter :
    Reports (gCompressors Gzip.sampleZlib sampleDeflateZlib 0) "gzip" [0x61] 100 false
      (compress (gCompressors Gzip.sampleZlib sampleDeflateZlib 0) "gzip" [0x61] 100 false) ↔
    ("gzip" = bestCompression → ([0x61] : Bytes) = [] ∨ (100 : ℤ) < 5 ∨
      ∃ c ∈ gCompressors Gzip.sampleZlib sampleDeflateZlib 0,
        (c.compress [0x61] (clampLevel 100) false).length < ([0x61] : Bytes).length) :=
  reports_compress_iff neverEmpty_sample 0 "gzip" [0x61] 100 false

end SnapCpp.Compression
