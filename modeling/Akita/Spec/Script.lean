import Akita.Lib.Stateful
import Akita.Spec.Transcript

/-!
# Scripts of channel operations

A script is a list of channel operations whose element counts, bounds and public values
are fixed. The prover runs a script with a message for each operation, the verifier runs
it over a proof and returns the messages it received. The verifier's calls that no script
of messages has (`guard`, `reject`, slot allocation, digests) are in `VerifierCall`.
-/

namespace Akita.Transcript

open Lib

/-- One operation on the channel, over the base field `F`, the extension field `E`, a further
kind of proof atom `T` and the type `D` of decoded challenge messages. -/
inductive ChannelOp (F E T D : Type)
  | publicBytes (site : ProtocolSiteId) (bytes : List UInt8)
  | publicFields (site : ProtocolSiteId) (values : List F)
  | publicExtensions (site : ProtocolSiteId) (values : List E)
  | fieldGroup (site : ProtocolSiteId) (count : ℕ)
  | byteGroup (site : ProtocolSiteId) (len : ℕ)
  | boundedBytes (site : ProtocolSiteId) (maxLen : ℕ)
  | extensionGroup (site : ProtocolSiteId) (slots : List E)
  | exchange (slots : List T)
  | nonce
  | challenges (site : ProtocolSiteId) (count : ℕ)
  | challenge (site : ProtocolSiteId)
  | challengeMessage (len : ℕ) (decode : List UInt8 → Result D)

namespace ChannelOp

variable {F E T D : Type}

def Message : ChannelOp F E T D → Type
  | .fieldGroup _ _ => List F
  | .byteGroup _ _ => List UInt8
  | .boundedBytes _ _ => List UInt8
  | .extensionGroup _ _ => List E
  | .exchange _ => List T
  | .nonce => UInt32
  | _ => Unit

/-- What both parties draw at an operation. -/
def Reply : ChannelOp F E T D → Type
  | .challenges _ _ => List E
  | .challenge _ => E
  | .challengeMessage _ _ => D
  | _ => Unit

/-- The message has the length the script fixes, or keeps to its bound. -/
def Admits : (o : ChannelOp F E T D) → o.Message → Prop
  | .fieldGroup _ count, (m : List F) => m.length = count
  | .byteGroup _ len, (m : List UInt8) => m.length = len
  | .boundedBytes _ maxLen, (m : List UInt8) => m.length ≤ maxLen
  | .extensionGroup _ slots, (m : List E) => m.length = slots.length
  | .exchange slots, (m : List T) => m.length = slots.length
  | _, _ => True

section

variable [CanonicalEncoding F] [ExtField F E] [ProofAtom T] {𝔱 : TranscriptBackend} (codec : ChallengeCodec E)

def proverStep : (o : ChannelOp F E T D) → o.Message → Chan 𝔱.Prover o.Reply
  | .publicBytes site bytes, _ => Transcript.publicBytes site bytes
  | .publicFields site values, _ => Transcript.publicFields site values
  | .publicExtensions site values, _ => Transcript.publicExtensions F site values
  | .fieldGroup site _, (m : List F) => sendFieldGroup site m
  | .byteGroup site _, (m : List UInt8) => sendByteGroup site m
  | .boundedBytes site maxLen, (m : List UInt8) => sendBoundedBytes site m maxLen
  | .extensionGroup site _, (m : List E) => do
    let _ ← exchangeExtensionGroup F site m
    return ()
  | .exchange _, (m : List T) => do
    let _ ← ProofChannel.exchange m
    return ()
  | .nonce, (m : UInt32) => sendNonce m
  | .challenges site count, _ => extChallenges codec site count
  | .challenge site, _ => extChallenge codec site
  | .challengeMessage len decode, _ => ProofChannel.challengeMessage len decode

def verifierStep : (o : ChannelOp F E T D) → Chan 𝔱.Verifier (o.Message × o.Reply)
  | .publicBytes site bytes => do
    Transcript.publicBytes site bytes
    return ((), ())
  | .publicFields site values => do
    Transcript.publicFields site values
    return ((), ())
  | .publicExtensions site values => do
    Transcript.publicExtensions F site values
    return ((), ())
  | .fieldGroup site count => do return (← receiveFieldGroup (F := F) site count, ())
  | .byteGroup site len => do return (← receiveByteGroup site len, ())
  | .boundedBytes site maxLen => do return (← receiveBoundedBytes site maxLen, ())
  | .extensionGroup site slots => do return (← exchangeExtensionGroup F site slots, ())
  | .exchange slots => do return (← ProofChannel.exchange slots, ())
  | .nonce => do return (← receiveNonce, ())
  | .challenges site count => do return ((), ← extChallenges codec site count)
  | .challenge site => do return ((), ← extChallenge codec site)
  | .challengeMessage len decode => do return ((), ← ProofChannel.challengeMessage len decode)

end

end ChannelOp

section

variable {F E T D : Type}

def Messages : List (ChannelOp F E T D) → Type
  | [] => Unit
  | o :: os => o.Message × Messages os

def Replies : List (ChannelOp F E T D) → Type
  | [] => Unit
  | o :: os => o.Reply × Replies os

/-- Every message has the length its operation fixes. -/
def Admitted : (script : List (ChannelOp F E T D)) → Messages script → Prop
  | [], _ => True
  | o :: os, (m, ms) => o.Admits m ∧ Admitted os ms

variable [CanonicalEncoding F] [ExtField F E] [ProofAtom T] {𝔱 : TranscriptBackend} (codec : ChallengeCodec E)

def proverRun : (script : List (ChannelOp F E T D)) → Messages script → Chan 𝔱.Prover (Replies script)
  | [], _ => pure ()
  | o :: os, (m, ms) => do
    let r ← o.proverStep codec m
    let rs ← proverRun os ms
    return (r, rs)

def verifierRun : (script : List (ChannelOp F E T D)) → Chan 𝔱.Verifier (Messages script × Replies script)
  | [] => pure ((), ())
  | o :: os => do
    let (m, r) ← o.verifierStep codec
    let (ms, rs) ← verifierRun os
    return ((m, ms), (r, rs))

inductive VerifierCall (F E T D : Type)
  | op (o : ChannelOp F E T D)
  | fieldDigest (site : ProtocolSiteId)
  | guard (result : Result D)
  | reject
  | extensionSlots (count : ℕ)

def VerifierCall.run [Zero E] : VerifierCall F E T D → Chan 𝔱.Verifier Unit
  | .op o => do
    let _ ← o.verifierStep codec
    return ()
  | .fieldDigest site => do
    let _ ← receiveFieldDigest site
    return ()
  | .guard result => do
    let _ ← ProofChannel.guard result
    return ()
  | .reject => do
    let _ ← Transcript.reject
    return ()
  | .extensionSlots count => do
    let _ ← Transcript.extensionSlots (E := E) count
    return ()

end

end Akita.Transcript
