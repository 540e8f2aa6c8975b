import Mathlib

/-!
# Titan.Snow.Instance — snow instances behind the tree

A snow instance decides one bit, or (unary) waits on a bit without conflict. The
tree is generic in the instances: `Factory` collects their operations, and
`snowflakeFactory` and `snowballFactory` are the two the source has.

Both factories use a single termination condition, so a confidence counter is
one number and `clear(confidence)` sets it to zero.
-/

namespace Titan.Snow

/-- The fields of `snowball.Parameters` that consensus reads. -/
structure Parameters where
  k : ℕ
  alphaPreference : ℕ
  alphaConfidence : ℕ
  beta : ℕ
deriving DecidableEq, Repr

/-- The conditions of `Parameters.Verify` on these fields. The other fields only
have to be positive, with `ConcurrentRepolls` at most `beta`. -/
def Parameters.Verify (p : Parameters) : Prop :=
  p.k / 2 < p.alphaPreference ∧ p.alphaPreference ≤ p.alphaConfidence ∧
  p.alphaConfidence ≤ p.k ∧ 0 < p.beta

instance (p : Parameters) : Decidable p.Verify :=
  inferInstanceAs (Decidable (_ ∧ _ ∧ _ ∧ _))

/-- `Factory`, with the operations of the instances it makes. A choice of a
binary instance is a bit. -/
structure Factory (U B : Type) where
  newUnary : Parameters → U
  unaryRecordPoll : U → ℕ → U
  unaryRecordUnsuccessfulPoll : U → U
  unaryFinalized : U → Bool
  extend : U → Bool → B
  binaryRecordPoll : B → ℕ → Bool → B
  binaryRecordUnsuccessfulPoll : B → B
  binaryFinalized : B → Bool
  binaryPreference : B → Bool

/-- What the tree relies on: extending keeps the choice, and an unsuccessful
poll changes neither the preference nor the finality of an instance. -/
structure Factory.Lawful {U B : Type} (F : Factory U B) : Prop where
  extend_preference : ∀ u bit, F.binaryPreference (F.extend u bit) = bit
  unsuccessful_preference : ∀ b,
    F.binaryPreference (F.binaryRecordUnsuccessfulPoll b) = F.binaryPreference b
  unary_unsuccessful_finalized : ∀ u,
    F.unaryFinalized (F.unaryRecordUnsuccessfulPoll u) = F.unaryFinalized u
  binary_unsuccessful_finalized : ∀ b,
    F.binaryFinalized (F.binaryRecordUnsuccessfulPoll b) = F.binaryFinalized b

/-- How the instances made with some parameters count polls. `leaning` is the bit of the last
poll that reached `AlphaPreference`: a snowball instance may prefer the other bit. -/
structure Factory.Counter {U B : Type} (F : Factory U B) (params : Parameters) where
  unaryMade : U → Prop
  binaryMade : B → Prop
  unaryConfidence : U → ℕ
  binaryConfidence : B → ℕ
  leaning : B → Bool
  newUnary_spec : unaryMade (F.newUnary params) ∧ unaryConfidence (F.newUnary params) = 0 ∧
    F.unaryFinalized (F.newUnary params) = false
  extend_spec : ∀ u bit, unaryMade u → binaryMade (F.extend u bit) ∧
    binaryConfidence (F.extend u bit) = unaryConfidence u ∧ leaning (F.extend u bit) = bit ∧
    F.binaryFinalized (F.extend u bit) = F.unaryFinalized u
  unary_reset : ∀ u, unaryMade u → unaryMade (F.unaryRecordUnsuccessfulPoll u) ∧
    unaryConfidence (F.unaryRecordUnsuccessfulPoll u) = 0
  binary_reset : ∀ b, binaryMade b → binaryMade (F.binaryRecordUnsuccessfulPoll b) ∧
    binaryConfidence (F.binaryRecordUnsuccessfulPoll b) = 0
  unary_poll : ∀ u count, unaryMade u → unaryMade (F.unaryRecordPoll u count) ∧
    unaryConfidence (F.unaryRecordPoll u count) =
      (if count < params.alphaConfidence then 0 else unaryConfidence u + 1) ∧
    F.unaryFinalized (F.unaryRecordPoll u count) = (F.unaryFinalized u ||
      decide (params.alphaConfidence ≤ count ∧ params.beta ≤ unaryConfidence u + 1))
  binary_poll : ∀ b count choice, binaryMade b → F.binaryFinalized b = false →
    params.alphaPreference ≤ count →
    let confidence := if choice = leaning b then binaryConfidence b else 0
    binaryMade (F.binaryRecordPoll b count choice) ∧
    binaryConfidence (F.binaryRecordPoll b count choice) =
      (if count < params.alphaConfidence then 0 else confidence + 1) ∧
    leaning (F.binaryRecordPoll b count choice) = choice ∧
    F.binaryFinalized (F.binaryRecordPoll b count choice) =
      decide (params.alphaConfidence ≤ count ∧ params.beta ≤ confidence + 1)
  binary_poll_finalized : ∀ b count choice, F.binaryFinalized b = true →
    F.binaryFinalized (F.binaryRecordPoll b count choice) = true ∧
    F.binaryPreference (F.binaryRecordPoll b count choice) = F.binaryPreference b
  unary_reset_of_zero : ∀ u, unaryConfidence u = 0 → F.unaryRecordUnsuccessfulPoll u = u
  unary_reset_reset : ∀ u, F.unaryRecordUnsuccessfulPoll (F.unaryRecordUnsuccessfulPoll u) =
    F.unaryRecordUnsuccessfulPoll u
  binary_reset_reset : ∀ b, F.binaryRecordUnsuccessfulPoll (F.binaryRecordUnsuccessfulPoll b) =
    F.binaryRecordUnsuccessfulPoll b
  reset_extend : ∀ u bit, F.binaryRecordUnsuccessfulPoll (F.extend u bit) =
    F.extend (F.unaryRecordUnsuccessfulPoll u) bit

/-! ## Snowflake -/

structure UnarySnowflake where
  alphaPreference : ℕ
  alphaConfidence : ℕ
  beta : ℕ
  confidence : ℕ
  finalized : Bool
deriving DecidableEq, Repr

namespace UnarySnowflake

def new (p : Parameters) : UnarySnowflake :=
  ⟨p.alphaPreference, p.alphaConfidence, p.beta, 0, false⟩

def recordPoll (sf : UnarySnowflake) (count : ℕ) : UnarySnowflake :=
  if count < sf.alphaConfidence then { sf with confidence := 0 }
  else if sf.beta ≤ sf.confidence + 1 then
    { sf with confidence := sf.confidence + 1, finalized := true }
  else { sf with confidence := sf.confidence + 1 }

def recordUnsuccessfulPoll (sf : UnarySnowflake) : UnarySnowflake :=
  { sf with confidence := 0 }

end UnarySnowflake

structure BinarySnowflake where
  /-- The preference of the embedded slush instance. -/
  preference : Bool
  alphaPreference : ℕ
  alphaConfidence : ℕ
  beta : ℕ
  confidence : ℕ
  finalized : Bool
deriving DecidableEq, Repr

namespace BinarySnowflake

def recordUnsuccessfulPoll (sf : BinarySnowflake) : BinarySnowflake :=
  { sf with confidence := 0 }

def recordPoll (sf : BinarySnowflake) (count : ℕ) (choice : Bool) : BinarySnowflake :=
  if sf.finalized then sf
  else if count < sf.alphaPreference then sf.recordUnsuccessfulPoll
  else
    -- changing the preference resets the confidence first
    let confidence := if choice ≠ sf.preference then 0 else sf.confidence
    let sf := { sf with preference := choice }
    if count < sf.alphaConfidence then { sf with confidence := 0 }
    else if sf.beta ≤ confidence + 1 then
      { sf with confidence := confidence + 1, finalized := true }
    else { sf with confidence := confidence + 1 }

end BinarySnowflake

def UnarySnowflake.extend (sf : UnarySnowflake) (choice : Bool) : BinarySnowflake :=
  ⟨choice, sf.alphaPreference, sf.alphaConfidence, sf.beta, sf.confidence, sf.finalized⟩

def snowflakeFactory : Factory UnarySnowflake BinarySnowflake where
  newUnary := UnarySnowflake.new
  unaryRecordPoll := UnarySnowflake.recordPoll
  unaryRecordUnsuccessfulPoll := UnarySnowflake.recordUnsuccessfulPoll
  unaryFinalized := UnarySnowflake.finalized
  extend := UnarySnowflake.extend
  binaryRecordPoll := BinarySnowflake.recordPoll
  binaryRecordUnsuccessfulPoll := BinarySnowflake.recordUnsuccessfulPoll
  binaryFinalized := BinarySnowflake.finalized
  binaryPreference := BinarySnowflake.preference

theorem snowflakeFactory_lawful : snowflakeFactory.Lawful where
  extend_preference := fun _ _ => rfl
  unsuccessful_preference := fun _ => rfl
  unary_unsuccessful_finalized := fun _ => rfl
  binary_unsuccessful_finalized := fun _ => rfl

namespace UnarySnowflake

/-- The instance has the thresholds of the parameters. -/
def Made (params : Parameters) (sf : UnarySnowflake) : Prop :=
  sf.alphaPreference = params.alphaPreference ∧ sf.alphaConfidence = params.alphaConfidence ∧
  sf.beta = params.beta

theorem recordPoll_spec {params : Parameters} {sf : UnarySnowflake} (h : sf.Made params)
    (count : ℕ) : (sf.recordPoll count).Made params ∧
    (sf.recordPoll count).confidence =
      (if count < params.alphaConfidence then 0 else sf.confidence + 1) ∧
    (sf.recordPoll count).finalized = (sf.finalized ||
      decide (params.alphaConfidence ≤ count ∧ params.beta ≤ sf.confidence + 1)) := by
  rcases h with ⟨hpref, hconf, hbeta⟩
  unfold recordPoll
  rw [← hconf, ← hbeta]
  split
  next hlt => exact ⟨⟨hpref, hconf, hbeta⟩, rfl, by simp [Nat.not_le.mpr hlt]⟩
  next hge =>
    split
    next hfin => exact ⟨⟨hpref, hconf, hbeta⟩, rfl, by simp [Nat.not_lt.mp hge, hfin]⟩
    next hfin => exact ⟨⟨hpref, hconf, hbeta⟩, rfl, by simp [hfin]⟩

end UnarySnowflake

namespace BinarySnowflake

def Made (params : Parameters) (sf : BinarySnowflake) : Prop :=
  sf.alphaPreference = params.alphaPreference ∧ sf.alphaConfidence = params.alphaConfidence ∧
  sf.beta = params.beta

theorem recordPoll_spec {params : Parameters} {sf : BinarySnowflake} (h : sf.Made params)
    (hopen : sf.finalized = false) {count : ℕ} (hcount : params.alphaPreference ≤ count)
    (choice : Bool) :
    let confidence := if choice = sf.preference then sf.confidence else 0
    (sf.recordPoll count choice).Made params ∧
    (sf.recordPoll count choice).confidence =
      (if count < params.alphaConfidence then 0 else confidence + 1) ∧
    (sf.recordPoll count choice).preference = choice ∧
    (sf.recordPoll count choice).finalized =
      decide (params.alphaConfidence ≤ count ∧ params.beta ≤ confidence + 1) := by
  rcases h with ⟨hpref, hconf, hbeta⟩
  have hconfidence : (if choice ≠ sf.preference then 0 else sf.confidence) =
      (if choice = sf.preference then sf.confidence else 0) := by
    by_cases hchoice : choice = sf.preference <;> simp [hchoice]
  unfold recordPoll
  dsimp only
  rw [hconfidence, ← hconf, ← hbeta]
  generalize (if choice = sf.preference then sf.confidence else 0) = confidence
  split
  next hfin => exact absurd hfin (by rw [hopen]; exact Bool.false_ne_true)
  split
  next hlt => omega
  split
  next hlt => exact ⟨⟨hpref, hconf, hbeta⟩, rfl, rfl, by simp [hopen, Nat.not_le.mpr hlt]⟩
  next hge =>
    split
    next hfin => exact ⟨⟨hpref, hconf, hbeta⟩, rfl, rfl, by simp [Nat.not_lt.mp hge, hfin]⟩
    next hfin => exact ⟨⟨hpref, hconf, hbeta⟩, rfl, rfl, by simp [hopen, hfin]⟩

theorem recordPoll_finalized {sf : BinarySnowflake} (h : sf.finalized = true) (count : ℕ)
    (choice : Bool) : sf.recordPoll count choice = sf := by
  unfold recordPoll
  rw [if_pos h]

end BinarySnowflake

theorem UnarySnowflake.recordUnsuccessfulPoll_of_zero {sf : UnarySnowflake}
    (h : sf.confidence = 0) : sf.recordUnsuccessfulPoll = sf := by
  unfold UnarySnowflake.recordUnsuccessfulPoll
  rw [← h]

def snowflakeCounter (params : Parameters) : snowflakeFactory.Counter params where
  unaryMade := UnarySnowflake.Made params
  binaryMade := BinarySnowflake.Made params
  unaryConfidence := UnarySnowflake.confidence
  binaryConfidence := BinarySnowflake.confidence
  leaning := BinarySnowflake.preference
  newUnary_spec := ⟨⟨rfl, rfl, rfl⟩, rfl, rfl⟩
  extend_spec := fun _ _ h => ⟨h, rfl, rfl, rfl⟩
  unary_reset := fun _ h => ⟨h, rfl⟩
  binary_reset := fun _ h => ⟨h, rfl⟩
  unary_poll := fun _ count h => UnarySnowflake.recordPoll_spec h count
  binary_poll := fun _ _ choice h hopen hcount => BinarySnowflake.recordPoll_spec h hopen hcount choice
  binary_poll_finalized := by
    intro b count choice h
    have heq : snowflakeFactory.binaryRecordPoll b count choice = b :=
      BinarySnowflake.recordPoll_finalized h count choice
    exact ⟨by rw [heq, h], by rw [heq]⟩
  unary_reset_of_zero := fun _ => UnarySnowflake.recordUnsuccessfulPoll_of_zero
  unary_reset_reset := fun _ => rfl
  binary_reset_reset := fun _ => rfl
  reset_extend := fun _ _ => rfl

/-! ## Snowball -/

structure UnarySnowball where
  snowflake : UnarySnowflake
  preferenceStrength : ℕ
deriving DecidableEq, Repr

namespace UnarySnowball

def recordPoll (sb : UnarySnowball) (count : ℕ) : UnarySnowball where
  snowflake := sb.snowflake.recordPoll count
  preferenceStrength :=
    if sb.snowflake.alphaPreference ≤ count then sb.preferenceStrength + 1
    else sb.preferenceStrength

end UnarySnowball

structure BinarySnowball where
  snowflake : BinarySnowflake
  preference : Bool
  /-- The number of polls that preferred each bit. -/
  preferenceStrength : Bool → ℕ

namespace BinarySnowball

/-- A finalized snowflake overrules the snowball preference. -/
def currentPreference (sb : BinarySnowball) : Bool :=
  if sb.snowflake.finalized then sb.snowflake.preference else sb.preference

def recordPoll (sb : BinarySnowball) (count : ℕ) (choice : Bool) : BinarySnowball :=
  let strength := fun bit =>
    if bit = choice then sb.preferenceStrength bit + 1 else sb.preferenceStrength bit
  if sb.snowflake.alphaPreference ≤ count then
    { snowflake := sb.snowflake.recordPoll count choice
      preference := if strength (!choice) < strength choice then choice else sb.preference
      preferenceStrength := strength }
  else
    { sb with snowflake := sb.snowflake.recordPoll count choice }

end BinarySnowball

def UnarySnowball.extend (sb : UnarySnowball) (choice : Bool) : BinarySnowball where
  snowflake := sb.snowflake.extend choice
  preference := choice
  preferenceStrength := fun bit => if bit = choice then sb.preferenceStrength else 0

def snowballFactory : Factory UnarySnowball BinarySnowball where
  newUnary := fun p => ⟨UnarySnowflake.new p, 0⟩
  unaryRecordPoll := UnarySnowball.recordPoll
  unaryRecordUnsuccessfulPoll := fun sb =>
    { sb with snowflake := sb.snowflake.recordUnsuccessfulPoll }
  unaryFinalized := fun sb => sb.snowflake.finalized
  extend := UnarySnowball.extend
  binaryRecordPoll := BinarySnowball.recordPoll
  binaryRecordUnsuccessfulPoll := fun sb =>
    { sb with snowflake := sb.snowflake.recordUnsuccessfulPoll }
  binaryFinalized := fun sb => sb.snowflake.finalized
  binaryPreference := BinarySnowball.currentPreference

theorem snowballFactory_lawful : snowballFactory.Lawful where
  extend_preference := by
    intro u bit
    -- finalized or not, both preferences are the extended choice
    change (u.extend bit).currentPreference = bit
    unfold BinarySnowball.currentPreference
    split <;> rfl
  unsuccessful_preference := fun _ => rfl
  unary_unsuccessful_finalized := fun _ => rfl
  binary_unsuccessful_finalized := fun _ => rfl

theorem BinarySnowball.recordPoll_snowflake (sb : BinarySnowball) (count : ℕ) (choice : Bool) :
    (sb.recordPoll count choice).snowflake = sb.snowflake.recordPoll count choice := by
  unfold BinarySnowball.recordPoll
  split <;> rfl

def snowballCounter (params : Parameters) : snowballFactory.Counter params where
  unaryMade := fun sb => sb.snowflake.Made params
  binaryMade := fun sb => sb.snowflake.Made params
  unaryConfidence := fun sb => sb.snowflake.confidence
  binaryConfidence := fun sb => sb.snowflake.confidence
  leaning := fun sb => sb.snowflake.preference
  newUnary_spec := ⟨⟨rfl, rfl, rfl⟩, rfl, rfl⟩
  extend_spec := fun _ _ h => ⟨h, rfl, rfl, rfl⟩
  unary_reset := fun _ h => ⟨h, rfl⟩
  binary_reset := fun _ h => ⟨h, rfl⟩
  unary_poll := fun _ count h => UnarySnowflake.recordPoll_spec h count
  binary_poll := by
    intro b count choice h hopen hcount
    have hflake : (snowballFactory.binaryRecordPoll b count choice).snowflake =
        b.snowflake.recordPoll count choice := b.recordPoll_snowflake count choice
    rw [show snowballFactory.binaryFinalized (snowballFactory.binaryRecordPoll b count choice) =
      (snowballFactory.binaryRecordPoll b count choice).snowflake.finalized from rfl, hflake]
    exact BinarySnowflake.recordPoll_spec h hopen hcount choice
  binary_poll_finalized := by
    intro b count choice h
    have hfin : b.snowflake.finalized = true := h
    have hflake : (snowballFactory.binaryRecordPoll b count choice).snowflake = b.snowflake := by
      rw [show (snowballFactory.binaryRecordPoll b count choice).snowflake = _ from
        b.recordPoll_snowflake count choice, BinarySnowflake.recordPoll_finalized hfin]
    refine ⟨(congrArg BinarySnowflake.finalized hflake).trans hfin, ?_⟩
    -- both preferences are those of the finalized snowflake
    show BinarySnowball.currentPreference _ = BinarySnowball.currentPreference b
    unfold BinarySnowball.currentPreference
    rw [hflake, if_pos hfin, if_pos hfin]
  unary_reset_of_zero := by
    intro u h
    show (⟨u.snowflake.recordUnsuccessfulPoll, u.preferenceStrength⟩ : UnarySnowball) = u
    rw [UnarySnowflake.recordUnsuccessfulPoll_of_zero h]
  unary_reset_reset := fun _ => rfl
  binary_reset_reset := fun _ => rfl
  reset_extend := fun _ _ => rfl

end Titan.Snow
