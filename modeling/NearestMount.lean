import NearestMount.Path.Parse
import NearestMount.Trie.Lookup
import NearestMount.Trie.Walk
import NearestMount.Trie.Edit
import NearestMount.Table.Lemmas
import NearestMount.Cache.Lemmas
import NearestMount.Settings.File
import NearestMount.Resolver.Command
import NearestMount.Proofs.Resolver.Refusal
import NearestMount.Proofs.Trie.History
import NearestMount.Proofs.Trie.Pruning
import NearestMount.Proofs.Trie.Restoring
import NearestMount.Proofs.Resolver.Rebuild
import NearestMount.Proofs.Settings.RoundTrip
import NearestMount.Proofs.Cache.Maps
import NearestMount.Proofs.Path.Grammar
import NearestMount.Proofs.Table.Beneath
import NearestMount.Proofs.Table.Deepest
import NearestMount.Proofs.Table.Loading
import NearestMount.Proofs.Resolver.Reloading
import NearestMount.Proofs.Resolver.Precision
import NearestMount.Proofs.Resolver.Seeds
import NearestMount.Proofs.Trie.Levels
import NearestMount.Proofs.Trie.Subtrees
import NearestMount.Proofs.Trie.Leftovers
import NearestMount.Path.Kept
import NearestMount.Proofs.Path.Kept
import NearestMount.Proofs.Json.Words
import NearestMount.Proofs.Json.Skipping
import NearestMount.Proofs.Json.Members
import NearestMount.Proofs.Settings.Overrides
