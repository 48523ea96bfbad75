import AtomWire.Bytes.Lemmas
import AtomWire.Dynamic.Meaning
import AtomWire.Dynamic.Method
import AtomWire.Hash
import AtomWire.Host.Read
import AtomWire.Host.Routine
import AtomWire.Host.Write
import AtomWire.Outline
import AtomWire.Release
import AtomWire.Source.Descent
import AtomWire.Source.Probe
import AtomWire.Traversal
import AtomWire.Tree
import AtomWire.Writer.Command
import AtomWire.Writer.Slots
import AtomWire.Proofs.Moves
import AtomWire.Proofs.Records
import AtomWire.Proofs.Steps
import AtomWire.Proofs.Journal
import AtomWire.Proofs.Growth
import AtomWire.Proofs.Stores
import AtomWire.Proofs.Grammar
import AtomWire.Proofs.Acceptance
import AtomWire.Proofs.Containment
import AtomWire.Proofs.Trees
import AtomWire.Proofs.Transcripts
import AtomWire.Proofs.Spelling
import AtomWire.Proofs.RoundTrip
import AtomWire.Proofs.Rereading
import AtomWire.Proofs.Encoding
import AtomWire.Proofs.Commands
import AtomWire.Proofs.Slots
import AtomWire.Proofs.Widening
import AtomWire.Proofs.Atomicity
import AtomWire.Proofs.Capacity
import AtomWire.Proofs.Tilings
import AtomWire.Proofs.Truncation
import AtomWire.Proofs.Registration
import AtomWire.Proofs.Surveys
import AtomWire.Proofs.Twins
import AtomWire.Proofs.Lockstep
import AtomWire.Proofs.Cursors
import AtomWire.Proofs.Meanings
import AtomWire.Proofs.Decoding
import AtomWire.Proofs.Forwarding
import AtomWire.Proofs.FrameStack
import AtomWire.Proofs.VectorLocks
import AtomWire.Proofs.Footprints
import AtomWire.Proofs.Absence
import AtomWire.Proofs.Rounding
import AtomWire.Proofs.Payloads
import AtomWire.Proofs.Routines
import AtomWire.Proofs.Deliveries
import AtomWire.Proofs.Children
import AtomWire.Proofs.Locality
import AtomWire.Proofs.Handles
import AtomWire.Proofs.Elements
import AtomWire.Proofs.Chronology
import AtomWire.Proofs.Dictionaries
