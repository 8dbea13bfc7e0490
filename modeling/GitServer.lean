import GitServer.Bytes
import GitServer.CodecError
import GitServer.Config.ByteSize
import GitServer.Config.Command
import GitServer.Config.Decode
import GitServer.Config.Listen
import GitServer.Config.Settings
import GitServer.Config.Startup
import GitServer.Config.Yaml.Parser
import GitServer.Config.Yaml.Scalar
import GitServer.Config.Yaml.Scanner
import GitServer.Deflate.Gzip
import GitServer.Deflate.Huffman
import GitServer.Deflate.Inflate
import GitServer.Deflate.Zlib
import GitServer.Digest.Adler32
import GitServer.Digest.Crc32
import GitServer.Digest.Sha1
import GitServer.Engine.Access
import GitServer.Engine.Advertise
import GitServer.Engine.Connection
import GitServer.Engine.Receive
import GitServer.Engine.Upload
import GitServer.Engine.Walk
import GitServer.Http.Framing
import GitServer.Http.JsonBody
import GitServer.Http.Message
import GitServer.Http.Router
import GitServer.Main
import GitServer.Object.Commit
import GitServer.Object.GitObject
import GitServer.Object.Kind
import GitServer.Object.Signature
import GitServer.Object.Tag
import GitServer.Object.Tree
import GitServer.ObjectId
import GitServer.Pack.Decoded
import GitServer.Pack.Delta
import GitServer.Pack.Encode
import GitServer.Pack.Header
import GitServer.Pack.RawEntry
import GitServer.Pack.Scanner
import GitServer.Storage.Backend
import GitServer.Storage.BlobStore
import GitServer.Storage.Error
import GitServer.Storage.FileTree
import GitServer.Storage.Local
import GitServer.Storage.Metadata
import GitServer.Storage.ObjectCache
import GitServer.Storage.Reference
import GitServer.Storage.Remote
import GitServer.Storage.RepoName
import GitServer.Storage.Seed
import GitServer.Text.Blank
import GitServer.Text.Decimal
import GitServer.Text.Binary64
import GitServer.Text.Hex
import GitServer.Text.Lines
import GitServer.Text.Numeral
import GitServer.Text.Printable
import GitServer.Text.Quoted
import GitServer.Text.Utf8
import GitServer.Transport.Endpoint
import GitServer.Transport.Exec
import GitServer.Transport.Session
import GitServer.Transport.Termination
import GitServer.Wire.Capability
import GitServer.Wire.Error
import GitServer.Wire.PktLine
import GitServer.Wire.RefCommand
import GitServer.Wire.Reply
import GitServer.Wire.Service
import GitServer.Wire.SideBand
import GitServer.Wire.Transcript
import GitServer.Proofs.Deflate.Stored
import GitServer.Proofs.Pack.Codec
import GitServer.Proofs.Pack.Resolution
import GitServer.Proofs.Storage.Records
import GitServer.Proofs.Storage.Reliable
import GitServer.Proofs.Storage.RemoteStore
import GitServer.Proofs.Except
import GitServer.Proofs.Pack.Thin
import GitServer.Proofs.Pack.FailedSupply
import GitServer.Proofs.Pack.DeltaSemantics
import GitServer.Proofs.Engine.Unpack
import GitServer.Proofs.Deflate.Prefix
import GitServer.Proofs.Pack.Scanner
import GitServer.Proofs.Engine.ReadOnly
import GitServer.Proofs.Engine.Push
import GitServer.Proofs.Engine.PushReport
import GitServer.Proofs.Text.Utf8
import GitServer.Proofs.Storage.FileTree
import GitServer.Proofs.Storage.DiskSteps
import GitServer.Proofs.Storage.RefMap
import GitServer.Proofs.Storage.RemoteRefs
import GitServer.Proofs.Storage.LocalRefs
import GitServer.Proofs.Storage.LocalCreate
import GitServer.Proofs.Storage.RefStore
import GitServer.Proofs.Wire.PktLine
import GitServer.Proofs.Engine.Negotiation
import GitServer.Proofs.Engine.SessionStorage
import GitServer.Storage.RefLocks
import GitServer.Proofs.Storage.RefLocks
import GitServer.Proofs.Storage.Listing
import GitServer.Proofs.Storage.Delimiters
import GitServer.Proofs.Storage.Pagination
import GitServer.Proofs.Storage.RepoNames
import GitServer.Proofs.Storage.CanonicalNames
import GitServer.Proofs.Storage.RemoteRegistry
import GitServer.Proofs.Storage.RemoteListing
import GitServer.Proofs.Storage.Registry
import GitServer.Proofs.Engine.Connectivity
import GitServer.Wire.Chunks
import GitServer.Proofs.Wire.ReadersAgree
import GitServer.Proofs.Wire.LengthGrammar
import GitServer.Proofs.Storage.ObjectMap
import GitServer.Proofs.Storage.RemoteObjects
import GitServer.Proofs.Storage.LooseObjects
import GitServer.Proofs.Storage.LocalObjects
import GitServer.Proofs.Storage.LocalLifecycle
import GitServer.Proofs.Storage.LocalRegistry
import GitServer.Proofs.Storage.LocalListing
import GitServer.Proofs.Storage.ObjectStore
import GitServer.Proofs.Wire.SideBand
import GitServer.Proofs.Deflate.RoundTrip
import GitServer.Proofs.Object.Tree
import GitServer.Proofs.Text.Split
import GitServer.Proofs.Text.Blank
import GitServer.Proofs.Object.Signature
import GitServer.Proofs.Object.Commit
import GitServer.Proofs.Engine.Bindings
import GitServer.Proofs.Storage.RecordCodecs
import GitServer.Digest.Hasher
import GitServer.Pack.Stream
import GitServer.Proofs.Pack.Streaming
import GitServer.Proofs.Engine.IncludeTag
import GitServer.Proofs.Engine.Advertisement
import GitServer.Proofs.Config.ByteSize
import GitServer.Proofs.Pack.Varints
import GitServer.Proofs.Text.Hex
import GitServer.Proofs.Engine.ObjectGraph
import GitServer.Proofs.Engine.Walks
import GitServer.Proofs.Engine.FetchContent
