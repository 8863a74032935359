import InfraBox.Lib.FinMap
import InfraBox.Lib.Text
import InfraBox.Lib.DomainName
import InfraBox.Lib.Run
import InfraBox.Lib.Unseen
import InfraBox.Lease.Hostname
import InfraBox.Lease.Canonical
import InfraBox.Lib.Block
import InfraBox.Net.Addr
import InfraBox.Lease.Manager
import InfraBox.Lease.Invariant
import InfraBox.Lease.Operations
import InfraBox.Lease.Restore
import InfraBox.Lease.Runs
import InfraBox.Lease.Isolation
import InfraBox.Lease.Offers
import InfraBox.Lease.Naming
import InfraBox.Dns.RecordName
import InfraBox.Lib.Zone
import InfraBox.Dns.Server
import InfraBox.Dns.Names
import InfraBox.Dns.Lookup
import InfraBox.Dns.External
import InfraBox.Config.Settings
import InfraBox.Config.Accepted
import InfraBox.Dns.Reverse
import InfraBox.Dns.ReverseZones
import InfraBox.Dns.Agreement
import InfraBox.Acme.Types
import InfraBox.Acme.Store
import InfraBox.Acme.Accounts
import InfraBox.Acme.Orders
import InfraBox.Acme.Revocation
import InfraBox.Acme.Server
import InfraBox.Acme.Invariant
import InfraBox.Acme.Mutation
import InfraBox.Acme.Handlers
import InfraBox.Acme.Changes
import InfraBox.Acme.Runs
import InfraBox.Acme.Exec
import InfraBox.Acme.Consistency
import InfraBox.Acme.SingleFlight
import InfraBox.Acme.Lifecycle
import InfraBox.Acme.RevocationLists
import InfraBox.Acme.Issuance
import InfraBox.Acme.Accepted
import InfraBox.Lib.Window
import InfraBox.Acme.Quotas
import InfraBox.Acme.RetryAfter
import InfraBox.Lib.Durable
import InfraBox.Acme.Activity
import InfraBox.Lib.LinkedList
import InfraBox.Acme.Nonces
import InfraBox.Lib.FilePath
import InfraBox.Config.Paths
import InfraBox.Config.Records
import InfraBox.Ldap.Packet
import InfraBox.Ldap.Directory
import InfraBox.Lib.Bytes
import InfraBox.Lib.Tlv
import InfraBox.Ldap.Ber
import InfraBox.Ldap.Filter
import InfraBox.Lib.Formula
import InfraBox.Ldap.Kleene
import InfraBox.Lib.Fragments
import InfraBox.Ldap.Substrings
import InfraBox.Ldap.Server
import InfraBox.Ldap.Search
import InfraBox.Ldap.Session
import InfraBox.Ldap.Validate
import InfraBox.Lib.Postings
import InfraBox.Ldap.Membership
import InfraBox.Pki.Names
import InfraBox.Pki.Requests
import InfraBox.Pki.Service
import InfraBox.Lib.Interleaving
import InfraBox.Lib.Disk
import InfraBox.Lib.Publication
import InfraBox.Pki.Open
import InfraBox.Pki.Processes
import InfraBox.Pki.Root
import InfraBox.Acme.Identifiers
import InfraBox.Config.Pool
import InfraBox.Nfs.Filesystem
import InfraBox.Nfs.ReadOnly
import InfraBox.Lib.FileTree
import InfraBox.Nfs.TreeOS
import InfraBox.Nfs.HandleTable
import InfraBox.Nfs.Handles
import InfraBox.Nfs.Renames
import InfraBox.Nfs.Records
import InfraBox.Lib.Program
import InfraBox.Nfs.Cursor
import InfraBox.Nfs.Compound
import InfraBox.Tftp.Protocol
import InfraBox.Tftp.Transfer
import InfraBox.Lib.Tally
import InfraBox.Tftp.Serve
import InfraBox.Tftp.Blocks
import InfraBox.Dhcp.Hostname
import InfraBox.Lib.Hex
import InfraBox.Dhcp.Identity
import InfraBox.Lib.Rescale
import InfraBox.Ntp.Protocol
import InfraBox.Dhcp.Server
import InfraBox.Dhcp.Replies
import InfraBox.Dhcp.Exchange
import InfraBox.Dhcp.Records
