/-
What the inflater sees of a list of operations under `zlibx`.

The sender cuts the flush tail off every literal the planner emits.  The receiver
cannot tell two adjacent literals apart and puts one tail behind a whole run of
records.  So the stream comes back exactly when no two literals are adjacent, which is
`Framing.received_eq_sent_iff`.  Cutting a literal into records of bounded length does
not matter: the receiver puts them together again.

Where adjacent literals come from is the subject of `UploadSlabs.lean`.
-/
import AeroFtp.Proofs.Aerorsync.DeltaRoundTrip

namespace AeroFtp.NativeDriver

open EngineAdapter List Framing RealWire

variable {z : Deflater}

/-! ### The codec -/

/-- What is assumed of `flate2`: a flush leaves its tail behind something, since the
header of the empty block it writes comes before it. -/
def SyncFlushes (z : Deflater) : Prop :=
  ∀ state literal, literal ≠ [] →
    ∃ body, body ≠ [] ∧ (z.compress state literal).1 = body ++ deflateSyncFlushTail

theorem compressLiteral_spec (hz : SyncFlushes z) (encoder : DeflateLiteralStreamEncoder z)
    {literal : List UInt8} (hne : literal ≠ []) : (encoder.compressLiteral literal).1 ≠ [] ∧
      (encoder.compressLiteral literal).2.output
        = encoder.output ++ ((encoder.compressLiteral literal).1 ++ deflateSyncFlushTail) := by
  obtain ⟨body, hb, hp⟩ := hz encoder.deflater literal hne
  have hs : (encoder.compressLiteral literal).1 = body := by
    unfold DeflateLiteralStreamEncoder.compressLiteral
    rw [if_neg (by simpa using hne)]
    dsimp only
    rw [hp, if_pos (isSuffixOf_iff_suffix.mpr (suffix_append _ _)),
      length_append, Nat.add_sub_cancel, take_left]
  have ho : (encoder.compressLiteral literal).2.output
      = encoder.output ++ (body ++ deflateSyncFlushTail) := by
    unfold DeflateLiteralStreamEncoder.compressLiteral
    rw [if_neg (by simpa using hne), ← hp]
  rw [ho, hs]
  exact ⟨hb, rfl⟩

/-! ### Records -/

/-- The records of a list of operations, and the encoder behind them. -/
def wireRecords : List EngineDeltaOp → DeflateLiteralStreamEncoder z →
    List DeltaOp × DeflateLiteralStreamEncoder z
  | [], encoder => ([], encoder)
  | .literal raw :: ops, encoder =>
    if raw.isEmpty then wireRecords ops encoder
    else
      ((chunks maxDeltaLiteralLen (encoder.compressLiteral raw).1).map DeltaOp.literal
          ++ (wireRecords ops (encoder.compressLiteral raw).2).1,
        (wireRecords ops (encoder.compressLiteral raw).2).2)
  | .copyBlock idx :: ops, encoder =>
    (.copyRun idx.toInt32 1 :: (wireRecords ops encoder).1, (wireRecords ops encoder).2)

variable (ops : List EngineDeltaOp)

theorem encodable_wireRecords :
    ∀ encoder : DeflateLiteralStreamEncoder z, ∀ op ∈ (wireRecords ops encoder).1,
      Encodable op := by
  induction ops with
  | nil =>
    intro encoder op hop
    cases hop
  | cons op ops ih =>
    intro encoder wireOp hop
    cases op with
    | literal raw =>
      unfold wireRecords at hop
      by_cases he : raw.isEmpty
      · rw [if_pos he] at hop
        exact ih _ _ hop
      · rw [if_neg he] at hop
        rcases mem_append.mp hop with hop | hop
        · obtain ⟨chunk, hc, rfl⟩ := mem_map.mp hop
          exact mem_chunks (by decide) hc
        · exact ih _ _ hop
    | copyBlock idx =>
      rcases mem_cons.mp hop with rfl | hop
      · exact UInt16.le_refl 1
      · exact ih _ _ hop

theorem encodeDeltaOps_append (a b : List DeltaOp) :
    ∀ {state state₁ state₂ : DeltaStreamState} {x y : List UInt8},
      encodeDeltaOps a state = some (x, state₁) → encodeDeltaOps b state₁ = some (y, state₂) →
      encodeDeltaOps (a ++ b) state = some (x ++ y, state₂) := by
  induction a with
  | nil =>
    intro state state₁ state₂ x y ha hb
    cases ha
    exact hb
  | cons op a ih =>
    intro state state₁ state₂ x y ha hb
    rw [cons_append, encodeDeltaOps]
    rw [encodeDeltaOps] at ha
    cases hop : encodeDeltaOp op state with
    | none =>
      rw [hop] at ha
      cases ha
    | some first =>
      obtain ⟨bytes, next⟩ := first
      rw [hop] at ha
      dsimp only at ha ⊢
      cases hr : encodeDeltaOps a next with
      | none =>
        rw [hr] at ha
        cases ha
      | some rest =>
        rw [hr] at ha
        cases ha
        rw [ih hr hb, append_assoc]

theorem encodeDeltaOps_encodable {ops : List DeltaOp} (hops : ∀ op ∈ ops, Encodable op)
    (state : DeltaStreamState) :
    ∃ bytes state', encodeDeltaOps ops state = some (bytes, state') := by
  obtain ⟨bytes, state', henc, _⟩ := decodeTail_encode [] [] ops state hops
  exact ⟨bytes, state', henc⟩

theorem encode_eq {up : DeltaUpload z} {ops : List DeltaOp} {bytes : List UInt8}
    {state : DeltaStreamState} (h : encodeDeltaOps ops up.wireState = some (bytes, state)) :
    up.encode ops = some ⟨up.encoder, state, up.payload ++ bytes⟩ := by
  unfold DeltaUpload.encode
  rw [h]

theorem appendStreamingDeltaOps_eq : ∀ up : DeltaUpload z, ∃ bytes state,
      encodeDeltaOps (wireRecords ops up.encoder).1 up.wireState = some (bytes, state) ∧
        appendStreamingDeltaOps ops up
          = some ⟨(wireRecords ops up.encoder).2, state, up.payload ++ bytes⟩ := by
  induction ops with
  | nil =>
    intro up
    refine ⟨[], up.wireState, rfl, ?_⟩
    rw [append_nil]
    rfl
  | cons op ops ih =>
    intro up
    -- The records of one operation, then the rest.
    have hs : ∀ (up : DeltaUpload z) (records : List DeltaOp),
        (∀ op ∈ records, Encodable op) → ∃ up' bytes state, up.encode records = some up' ∧
            encodeDeltaOps (records ++ (wireRecords ops up.encoder).1) up.wireState
              = some (bytes, state) ∧
            appendStreamingDeltaOps ops up'
              = some ⟨(wireRecords ops up.encoder).2, state, up.payload ++ bytes⟩ := by
      intro up records hr
      obtain ⟨x, state₁, hx⟩ := encodeDeltaOps_encodable hr up.wireState
      obtain ⟨y, state₂, hy, happ⟩ := ih ⟨up.encoder, state₁, up.payload ++ x⟩
      refine ⟨_, x ++ y, state₂, encode_eq hx, encodeDeltaOps_append _ _ hx hy, ?_⟩
      rw [happ, append_assoc]
    cases op with
    | literal raw =>
      unfold appendStreamingDeltaOps wireRecords
      by_cases hempty : raw.isEmpty
      · rw [if_pos hempty, if_pos hempty]
        exact ih up
      · obtain ⟨up', bytes, state, hencode, hb, happ⟩ :=
          hs { up with encoder := (up.encoder.compressLiteral raw).2 }
            ((chunks maxDeltaLiteralLen (up.encoder.compressLiteral raw).1).map .literal)
            (by
              intro op hop
              obtain ⟨chunk, hc, rfl⟩ := mem_map.mp hop
              exact mem_chunks (by decide) hc)
        rw [if_neg hempty, if_neg hempty]
        refine ⟨bytes, state, hb, ?_⟩
        dsimp only
        rw [hencode]
        exact happ
    | copyBlock idx =>
      obtain ⟨up', bytes, state, hencode, hb, happ⟩ :=
        hs up [.copyRun idx.toInt32 1] (by
          intro op hop
          rw [mem_singleton.mp hop]
          exact UInt16.le_refl 1)
      refine ⟨bytes, state, hb, ?_⟩
      unfold appendStreamingDeltaOps
      rw [hencode]
      exact happ

/-! ### Bodies -/

/-- What the operations are to the framing: the body of a literal, or a copy. -/
def bodies : List EngineDeltaOp → DeflateLiteralStreamEncoder z → List (Option (List UInt8))
  | [], _ => []
  | .literal raw :: ops, encoder =>
    if raw.isEmpty then bodies ops encoder
    else some (encoder.compressLiteral raw).1 :: bodies ops (encoder.compressLiteral raw).2
  | .copyBlock _ :: ops, encoder => none :: bodies ops encoder

/-- Whether an operation is a literal. -/
def isLiteral : EngineDeltaOp → Bool
  | .literal _ => true
  | .copyBlock _ => false

/-- The operations that leave records, as literals and copies. -/
def kinds (ops : List EngineDeltaOp) : List Bool :=
  (ops.filter (· ≠ .literal [])).map isLiteral

theorem map_isSome_bodies : ∀ encoder : DeflateLiteralStreamEncoder z,
      (bodies ops encoder).map Option.isSome = kinds ops := by
  induction ops with
  | nil =>
    intro encoder
    rfl
  | cons op ops ih =>
    intro encoder
    cases op with
    | literal raw =>
      cases raw with
      | nil => exact ih encoder
      | cons x xs => exact congrArg (true :: ·) (ih _)
    | copyBlock idx => exact congrArg (false :: ·) (ih encoder)

theorem bodies_ne_nil (hz : SyncFlushes z) (ops : List EngineDeltaOp) :
    ∀ (encoder : DeflateLiteralStreamEncoder z) (body : List UInt8),
      some body ∈ bodies ops encoder → body ≠ [] := by
  induction ops with
  | nil =>
    intro encoder body hb
    cases hb
  | cons op ops ih =>
    intro encoder body hb
    cases op with
    | literal raw =>
      cases raw with
      | nil => exact ih encoder body hb
      | cons x xs =>
        rcases mem_cons.mp hb with hb | hb
        · rw [Option.some.inj hb]
          exact (compressLiteral_spec hz encoder (cons_ne_nil x xs)).1
        · exact ih _ body hb
    | copyBlock idx =>
      rcases mem_cons.mp hb with hb | hb
      · cases hb
      · exact ih encoder body hb

theorem output_wireRecords (hz : SyncFlushes z) (ops : List EngineDeltaOp) :
    ∀ encoder : DeflateLiteralStreamEncoder z, (wireRecords ops encoder).2.output
        = encoder.output ++ sent deflateSyncFlushTail (bodies ops encoder) := by
  induction ops with
  | nil =>
    intro encoder
    exact (append_nil _).symm
  | cons op ops ih =>
    intro encoder
    cases op with
    | literal raw =>
      cases raw with
      | nil => exact ih encoder
      | cons x xs =>
        have ho := (compressLiteral_spec hz encoder (cons_ne_nil x xs)).2
        refine (ih _).trans ?_
        rw [ho, append_assoc]
        rfl
    | copyBlock idx => exact ih encoder

theorem literalRunBlobsFrom_literals (payloads : List (List UInt8)) (wireOps : List DeltaOp) :
    ∀ currentRun, literalRunBlobsFrom currentRun (payloads.map DeltaOp.literal ++ wireOps)
      = literalRunBlobsFrom (currentRun ++ payloads.flatten) wireOps := by
  induction payloads with
  | nil =>
    intro currentRun
    rw [flatten_nil, append_nil]
    rfl
  | cons payload payloads ih =>
    intro currentRun
    rw [flatten_cons, ← append_assoc]
    exact ih (currentRun ++ payload)

theorem literalRunBlobsFrom_wireRecords :
    ∀ (encoder : DeflateLiteralStreamEncoder z) (currentRun : List UInt8),
      literalRunBlobsFrom currentRun (wireRecords ops encoder).1
        = runsFrom currentRun (bodies ops encoder) := by
  induction ops with
  | nil =>
    intro encoder currentRun
    rfl
  | cons op ops ih =>
    intro encoder currentRun
    cases op with
    | literal raw =>
      cases raw with
      | nil => exact ih encoder currentRun
      | cons x xs =>
        refine (literalRunBlobsFrom_literals _ _ _).trans ?_
        rw [flatten_chunks (by decide)]
        exact ih _ _
    | copyBlock idx =>
      exact congrArg ((if currentRun.isEmpty then [] else [currentRun]) ++ ·) (ih encoder [])

/-- **What the inflater sees** is the deflater's output exactly when no two literals
are adjacent. -/
theorem inflaterInput_eq_output_iff (hz : SyncFlushes z) (ops : List EngineDeltaOp) :
    inflaterInput (literalRunBlobs (wireRecords ops (.new : DeflateLiteralStreamEncoder z)).1)
        = (wireRecords ops (.new : DeflateLiteralStreamEncoder z)).2.output
      ↔ (kinds ops).IsChain Apart := by
  have hi : ∀ runs : List (List UInt8), (∀ run ∈ runs, run ≠ []) →
      inflaterInput runs = runs.flatMap (· ++ deflateSyncFlushTail) := by
    intro runs hruns
    refine flatMap_congr fun run hrun => ?_
    exact if_neg (by simpa using hruns run hrun)
  rw [literalRunBlobs, literalRunBlobsFrom_wireRecords,
    hi _ (ne_nil_of_mem_runsFrom _ _), output_wireRecords hz, ← map_isSome_bodies ops]
  exact received_eq_sent_iff (by decide) (bodies_ne_nil hz ops .new)

end AeroFtp.NativeDriver
